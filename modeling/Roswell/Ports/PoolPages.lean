import Roswell.Verified.Bitmap
import Roswell.Verified.Extents
import Roswell.Ports.PageWindow

/-!
# The pool page window

Model of `poolpages.c`: a 16 MiB window of kernel addresses whose pages hold the
pool.  A bitmap says which pages of the window are allocated, a table the length
of the run that starts at a page, and the search for a run starts at a rotating
hint and wraps once.  A run is backed page by page, with page tables taken on
the way; when the supply has no page left, what was mapped is unmapped again.

`Pool` is the state of the file with the machine under it.  `History` is any
sequence of its calls, each run freed at most once, with the rest of the kernel
using the supply in between.
-/

namespace Roswell.Ports.PoolPages

open Verified.Word Verified.Runs Verified.Extents PageSupply PageTables Function
open Verified (Bitmap.Words Bitmap.test Bitmap.setRange Bitmap.test_setRange)

def nxppBase : Nat := 0xC1000000
def nxppPages : Nat := 4096
def nxppPteBits : Nat := 0x3

/-- The virtual address of a page of the window. -/
def pageVa (start i : Nat) : Nat := nxppBase + start <<< 12 + i <<< 12

structure Pool where
  mem : Machine
  /-- `NxppRunPages` has been set. -/
  initialized : Bool
  usedMap : Bitmap.Words
  runPages : Nat → Nat
  scanHint : Nat
  committed : Nat

/-- The exits at which `NxPoolPagesAlloc` returns `NULL`. -/
inductive Failure where
  | notInitialized
  | windowFull
  | noPages
  deriving DecidableEq, Repr

/-! ## The window -/

def nxppTestRange (usedMap : Bitmap.Words) (start count : Nat) : Bool :=
  (List.range' start count).all fun i => !Bitmap.test usedMap i

def nxppSetRange (usedMap : Bitmap.Words) (start count : Nat) (set : Bool) : Bitmap.Words :=
  Bitmap.setRange usedMap start set count

/-- `BYTES_TO_PAGES`. -/
def bytesToPages (numberOfBytes : Nat) : Nat :=
  numberOfBytes >>> 12 + if numberOfBytes &&& 0xFFF ≠ 0 then 1 else 0

/-- First fit from the rotating hint, then wrap once. -/
def findRun (s : Pool) (count : Nat) : Option Nat :=
  let hit := fun probe => nxppTestRange s.usedMap probe count
  match scanUp (fun probe => probe + count ≤ nxppPages) hit (nxppPages + 1) s.scanHint with
  | some start => some start
  | none =>
    scanUp (fun probe => decide (probe < s.scanHint) && decide (probe + count ≤ nxppPages)) hit
      (nxppPages + 1) 0

/-- A page table for `va` if there is none; `none` when the supply is empty. -/
def ensureTable (m : Machine) (va : Nat) : Option Machine :=
  if present (m.pt (pdeIndex va)) then some m
  else
    match m.supply.nxkPageSupplyTakeAny with
    | (supply, pfn) =>
      if pfn = 0 then none
      else
        some { m.setTable (va >>> 22) (mkEntry pfn nxppPteBits) with
          supply := supply.nxkPageSupplySetOwner pfn (ownerPteVa (pdeIndex va)) }

/-- Return the page mapped at `va`. -/
def releasePage (m : Machine) (va : Nat) : Machine :=
  let pfn := frame (m.pt (pteIndex va))
  { m.setEntry (pteIndex va) 0 with
    supply := (m.supply.nxkPageSupplySetOwner pfn 0).nxkPageSupplyReturn pfn }

/-- Roll an allocation back, from its last page down. -/
def unwind (start : Nat) : Nat → Machine → Machine
  | 0, m => m
  | i + 1, m => unwind start i (releasePage m (pageVa start i))

/-- Back the `n` pages of a run from its page `i` on. -/
def backRun (start : Nat) : Nat → Nat → Machine → Machine × Bool
  | 0, _, m => (m, true)
  | n + 1, i, m =>
    match ensureTable m (pageVa start i) with
    | none => (unwind start i m, false)
    | some m =>
      match m.supply.nxkPageSupplyTakeAny with
      | (supply, pfn) =>
        if pfn = 0 then (unwind start i m, false)
        else
          let pte := pteIndex (pageVa start i)
          backRun start n (i + 1)
            { m.setEntry pte (mkEntry pfn nxppPteBits) with
              supply := supply.nxkPageSupplySetOwner pfn (ownerPteVa pte) }

/-- Return the `n` pages of a run from its page `i` on. -/
def releaseRun (start : Nat) : Nat → Nat → Machine → Machine
  | 0, _, m => m
  | n + 1, i, m => releaseRun start n (i + 1) (releasePage m (pageVa start i))

/-! ## Calls -/

/-- The metadata pages are zero. -/
def nxPoolPagesInitialize (s : Pool) : Pool :=
  { s with initialized := true, runPages := fun _ => 0, usedMap := fun _ => 0 }

def nxPoolPagesAlloc (s : Pool) (numberOfBytes : Nat) : Pool × Except Failure Nat :=
  let count := bytesToPages numberOfBytes
  if s.initialized = false then (s, .error .notInitialized)
  else
    match findRun s count with
    | none => (s, .error .windowFull)
    | some start =>
      match backRun start count 0 s.mem with
      | (mem, false) => ({ s with mem := mem }, .error .noPages)
      | (mem, true) =>
        let hint := start + count
        ({ s with
            mem := mem
            usedMap := nxppSetRange s.usedMap start count true
            runPages := update s.runPages start (count % 2 ^ 16)
            committed := wadd s.committed count
            scanHint := if nxppPages ≤ hint then 0 else hint },
          .ok (pageVa start 0))

def nxPoolPagesFree (s : Pool) (baseAddress : Nat) : Pool × Nat :=
  let start := (baseAddress - nxppBase) >>> 12
  let count := s.runPages start
  ({ s with
      mem := releaseRun start count 0 s.mem
      runPages := update s.runPages start 0
      usedMap := nxppSetRange s.usedMap start count false
      committed := wsub s.committed count },
    count)

/-! ## Indices -/

/-- The entries of the window. -/
def window : Window where
  base := 0xC1000
  pages := 4096
  base_dvd := ⟨772, rfl⟩
  pages_dvd := ⟨4, rfl⟩
  base_ge := by decide
  last_le := by decide

theorem window_has {i : Nat} : window.Has i ↔ 0xC1000 ≤ i ∧ i < 0xC1000 + nxppPages := Iff.rfl

theorem pageVa_eq (start i : Nat) : pageVa start i = (0xC1000 + start + i) * pageSize := by
  unfold pageVa nxppBase pageSize
  omega

@[simp] theorem pteIndex_pageVa (start i : Nat) :
    pteIndex (pageVa start i) = 0xC1000 + start + i := by
  rw [pageVa_eq, pteIndex_mul]

@[simp] theorem pdeIndex_pageVa (start i : Nat) :
    pdeIndex (pageVa start i) = 0xC0000 + (0xC1000 + start + i) / 1024 := by
  rw [pageVa_eq, pdeIndex_mul]

theorem start_pageVa (start : Nat) : (pageVa start 0 - nxppBase) >>> 12 = start := by
  unfold pageVa
  rw [Nat.zero_shiftLeft, Nat.add_zero, Nat.add_sub_cancel_left, Nat.shiftLeft_shiftRight]

theorem span_pageVa (start i : Nat) : pageVa start i >>> 22 = (0xC1000 + start + i) / 1024 := by
  rw [pageVa_eq, Nat.shiftRight_eq_div_pow]
  unfold pageSize
  omega

/-! ## Backing -/

section Backing

variable {m t : Machine} {start i n : Nat}

theorem ensureTable_spec (h : Backed window m) (hin : start + i < nxppPages) (lo : Nat) :
    ensureTable m (pageVa start i) = none ∨
      ∃ t, ensureTable m (pageVa start i) = some t ∧ Filled window m t lo lo ∧
        present (t.pt (0xC0000 + (0xC1000 + start + i) / 1024)) = true := by
  have hhas : window.Has (0xC1000 + start + i) := window_has.2 (by omega)
  unfold ensureTable
  rw [pdeIndex_pageVa, span_pageVa]
  split_ifs with hp
  · exact .inr ⟨m, rfl, .of_same (.refl h) (fun _ _ => rfl) lo, hp⟩
  rcases h.supply.takeAny_spec with ⟨-, hnone⟩ | ⟨htook, -⟩
  · rw [hnone]
    exact .inl rfl
  · right
    obtain ⟨hcons, hsame, hpres⟩ := h.newTable htook hhas.table (by simpa using hp)
      (show nxppPteBits < 2 ^ 12 by decide) (present_mkEntry _ _)
    simp only [if_neg (h.supply.free_pos htook.was_free)]
    exact ⟨_, rfl, .of_same (hcons.trans (hcons.backed.setOwner _ _)) hsame lo, hpres⟩

theorem releasePage_spec (h : Backed window m) (hin : start + i < nxppPages)
    (hne : m.pt (0xC1000 + start + i) ≠ 0) :
    Emptied window m (releasePage m (pageVa start i)) (0xC1000 + start + i)
      (0xC1000 + start + i + 1) := by
  have hhas : window.Has (0xC1000 + start + i) := window_has.2 (by omega)
  unfold releasePage
  rw [pteIndex_pageVa]
  exact .one (h.setOwner (frame (m.pt (0xC1000 + start + i))) 0) hhas hne

theorem unwind_spec (h : Backed window m) (hin : start + i ≤ nxppPages)
    (hne : ∀ k, k < i → m.pt (0xC1000 + start + k) ≠ 0) :
    Emptied window m (unwind start i m) (0xC1000 + start) (0xC1000 + start + i) := by
  induction i generalizing m with
  | zero => exact .refl h _
  | succ i ih =>
    have hlast := releasePage_spec h (by omega) (hne i (by omega))
    have hbelow : ∀ k, k < i →
        (releasePage m (pageVa start i)).pt (0xC1000 + start + k) ≠ 0 := by
      intro k hk
      rw [hlast.entries _ (window_has.2 (by omega)), if_neg (by omega)]
      exact hne k (by omega)
    exact hlast.trans (ih hlast.conserves.backed (by omega) hbelow) (by omega)

theorem releaseRun_spec (h : Backed window m) (hin : start + i + n ≤ nxppPages)
    (hne : ∀ k, i ≤ k → k < i + n → m.pt (0xC1000 + start + k) ≠ 0) :
    Emptied window m (releaseRun start n i m) (0xC1000 + start + i)
      (0xC1000 + start + i + n) := by
  induction n generalizing i m with
  | zero => exact .refl h _
  | succ n ih =>
    have hfirst := releasePage_spec h (by omega) (hne i (by omega) (by omega))
    have hrest : ∀ k, i + 1 ≤ k → k < i + 1 + n →
        (releasePage m (pageVa start i)).pt (0xC1000 + start + k) ≠ 0 := by
      intro k h1 h2
      rw [hfirst.entries _ (window_has.2 (by omega)), if_neg (by omega)]
      exact hne k (by omega) (by omega)
    exact hfirst.trans (ih hfirst.conserves.backed (by omega) hrest) (by omega)

/-- Of the machine `s` a call starts from, `m` has the first `i` pages of the run
backed.  The loop backs the rest, or leaves every entry as `s` has it. -/
theorem backRun_spec {s : Machine} (hin : start + i + n ≤ nxppPages)
    (h0 : ∀ k, k < i + n → s.pt (0xC1000 + start + k) = 0)
    (h : Filled window s m (0xC1000 + start) (0xC1000 + start + i)) :
    ((backRun start n i m).2 = true →
      Filled window s (backRun start n i m).1 (0xC1000 + start) (0xC1000 + start + i + n)) ∧
    ((backRun start n i m).2 = false →
      Conserves window s (backRun start n i m).1 ∧
        ∀ j, window.Has j → (backRun start n i m).1.pt j = s.pt j) := by
  induction n generalizing i m with
  | zero => exact ⟨fun _ => h, fun hf => absurd hf nofun⟩
  | succ n ih =>
    -- both failures unwind a machine with the first `i` pages backed
    have hfail : ∀ u, Filled window s u (0xC1000 + start) (0xC1000 + start + i) →
        Conserves window s (unwind start i u) ∧
          ∀ j, window.Has j → (unwind start i u).pt j = s.pt j := by
      intro u hu
      have hun := unwind_spec hu.conserves.backed (show start + i ≤ nxppPages by omega)
        (fun k hk => hu.mapped _ (by omega) (by omega))
      refine ⟨hu.conserves.trans hun.conserves, hun.undo hu ?_⟩
      intro j h1 h2
      have hj := h0 (j - (0xC1000 + start)) (by omega)
      rwa [Nat.add_sub_cancel' h1] at hj
    rcases ensureTable_spec h.conserves.backed (show start + i < nxppPages by omega)
      (0xC1000 + start + i) with hnone | ⟨t, ht, htable, hpres⟩
    · rw [backRun, hnone]
      exact ⟨fun hf => absurd hf nofun, fun _ => hfail m h⟩
    have hfill := h.trans htable (fun j _ _ => window_has.2 (by omega)) (by omega) (Nat.le_refl _)
    rw [backRun, ht]
    rcases hfill.conserves.backed.supply.takeAny_spec with ⟨-, hnone⟩ | ⟨htook, -⟩
    · simp only [hnone, if_pos]
      exact ⟨fun hf => absurd hf nofun, fun _ => hfail t hfill⟩
    simp only [if_neg (hfill.conserves.backed.supply.free_pos htook.was_free), pteIndex_pageVa]
    have hone := hfill.push (by omega) htook (window_has.2 (by omega)) (h0 i (by omega)) hpres
      (show nxppPteBits < 2 ^ 12 by decide) (present_mkEntry _ _)
    have hnext := ih (show start + (i + 1) + n ≤ nxppPages by omega)
      (fun k hk => h0 k (by omega))
      (hone.setOwner t.supply.nxkPageSupplyTakeAny.2 (ownerPteVa (0xC1000 + start + i)))
    rwa [show 0xC1000 + start + (i + 1) + n = 0xC1000 + start + i + (n + 1) by omega] at hnext

end Backing

/-! ## The search -/

section Search

variable {s : Pool} {start count : Nat}

theorem nxppTestRange_iff {usedMap : Bitmap.Words} :
    nxppTestRange usedMap start count = true ↔
      ∀ i, start ≤ i → i < start + count → Bitmap.test usedMap i = false := by
  unfold nxppTestRange
  rw [List.all_eq_true]
  constructor
  · intro h i h1 h2
    simpa using h i (List.mem_range'_1.2 ⟨h1, h2⟩)
  · intro h i hi
    obtain ⟨h1, h2⟩ := List.mem_range'_1.1 hi
    rw [h i h1 h2]
    rfl

theorem findRun_some (h : findRun s count = some start) :
    start + count ≤ nxppPages ∧ nxppTestRange s.usedMap start count = true := by
  unfold findRun at h
  dsimp only at h
  split at h
  · rename_i p hscan
    cases h
    obtain ⟨hgo, hhit⟩ := scanUp_some hscan
    exact ⟨of_decide_eq_true hgo, hhit⟩
  · obtain ⟨hgo, hhit⟩ := scanUp_some h
    rw [Bool.and_eq_true, decide_eq_true_eq, decide_eq_true_eq] at hgo
    exact ⟨hgo.2, hhit⟩

/-- The two scans together test every place a run fits. -/
theorem findRun_none (h : findRun s count = none) (hfit : start + count ≤ nxppPages) :
    nxppTestRange s.usedMap start count = false := by
  unfold findRun at h
  dsimp only at h
  split at h
  · exact absurd h nofun
  rename_i hscan
  by_cases hhint : s.scanHint ≤ start
  · refine scanUp_none (p := start) hscan hhint (by omega) ?_
    intro q _ hq
    exact decide_eq_true (by omega)
  · refine scanUp_none (p := start) h (Nat.zero_le _) (by omega) ?_
    intro q _ hq
    rw [Bool.and_eq_true, decide_eq_true_eq, decide_eq_true_eq]
    exact ⟨by omega, by omega⟩

end Search

/-! ## What a call does -/

/-- `t` is `s` after a call that allocated nothing. -/
structure Refused (s t : Pool) : Prop where
  rest : t = { s with mem := t.mem }
  conserves : Conserves window s.mem t.mem
  entries : ∀ i, window.Has i → t.mem.pt i = s.mem.pt i

/-- The pages the bitmap leaves free have no entry. -/
def EntriesMatch (s : Pool) : Prop :=
  ∀ i, i < nxppPages → (s.mem.pt (0xC1000 + i) ≠ 0 ↔ Bitmap.test s.usedMap i = true)

section Calls

variable {s : Pool}

/-- The run the search found has no entry yet, so the loop backs it whole or not
at all. -/
theorem backRun_found (h : Backed window s.mem) (hmatch : EntriesMatch s) {start count : Nat}
    (hfind : findRun s count = some start) :
    ((backRun start count 0 s.mem).2 = true →
      Filled window s.mem (backRun start count 0 s.mem).1 (0xC1000 + start)
        (0xC1000 + start + count)) ∧
    ((backRun start count 0 s.mem).2 = false →
      Conserves window s.mem (backRun start count 0 s.mem).1 ∧
        ∀ j, window.Has j → (backRun start count 0 s.mem).1.pt j = s.mem.pt j) := by
  obtain ⟨hfit, htest⟩ := findRun_some hfind
  refine backRun_spec (by omega) ?_ (.of_same (.refl h) (fun _ _ => rfl) _)
  intro k hk
  have hfree := nxppTestRange_iff.1 htest (start + k) (by omega) (by omega)
  have hm := hmatch (start + k) (by omega)
  rw [hfree] at hm
  rw [Nat.add_assoc]
  by_contra hne
  exact absurd (hm.1 hne) nofun

theorem nxPoolPagesAlloc_spec (h : Backed window s.mem) (hmatch : EntriesMatch s) (bytes : Nat) :
    (∃ e t, nxPoolPagesAlloc s bytes = (t, .error e) ∧ Refused s t ∧
      (e = .windowFull → findRun s (bytesToPages bytes) = none)) ∨
    ∃ start mem hint, findRun s (bytesToPages bytes) = some start ∧
      Filled window s.mem mem (0xC1000 + start) (0xC1000 + start + bytesToPages bytes) ∧
      nxPoolPagesAlloc s bytes =
        ({ s with
            mem := mem
            usedMap := nxppSetRange s.usedMap start (bytesToPages bytes) true
            runPages := update s.runPages start (bytesToPages bytes % 2 ^ 16)
            committed := wadd s.committed (bytesToPages bytes)
            scanHint := hint },
          .ok (pageVa start 0)) := by
  have hsame : Refused s s := ⟨rfl, .refl h, fun _ _ => rfl⟩
  unfold nxPoolPagesAlloc
  by_cases hinit : s.initialized = false
  · exact .inl ⟨_, _, if_pos hinit, hsame, nofun⟩
  simp only [if_neg hinit]
  cases hfind : findRun s (bytesToPages bytes) with
  | none => exact .inl ⟨_, _, rfl, hsame, fun _ => rfl⟩
  | some start =>
    obtain ⟨hdone, hfail⟩ := backRun_found h hmatch hfind
    rcases hback : backRun start (bytesToPages bytes) 0 s.mem with ⟨mem, _ | _⟩
    · rw [hback] at hfail
      obtain ⟨hcons, hentries⟩ := hfail rfl
      simp only [hback]
      exact .inl ⟨_, _, rfl, ⟨rfl, hcons, hentries⟩, nofun⟩
    · rw [hback] at hdone
      simp only [hback]
      exact .inr ⟨start, mem, _, rfl, hdone rfl, rfl⟩

end Calls

/-! ## Histories -/

/-- The pool with the runs handed out and not freed yet. -/
structure System where
  pool : Pool
  live : List Extent

inductive Act where
  | alloc (numberOfBytes : Nat)
  /-- Free a run through its base address. -/
  | free (run : Extent)
  /-- The rest of the kernel uses the supply. -/
  | other (mem : Machine)

namespace Act

/-- What the callers promise: requests are not empty, a run is freed while it is
live, and others keep out of the window, where relocation may still exchange the
page behind an entry. -/
def Admissible (s : System) : Act → Prop
  | .alloc numberOfBytes => bytesToPages numberOfBytes ≠ 0
  | .free run => run ∈ s.live
  | .other mem =>
    Backed window mem ∧ ∀ i, window.Has i → (mem.pt i = 0 ↔ s.pool.mem.pt i = 0)

def apply (s : System) : Act → System
  | .alloc numberOfBytes =>
    match nxPoolPagesAlloc s.pool numberOfBytes with
    | (pool, .ok va) =>
      ⟨pool, ⟨(va - nxppBase) >>> 12, bytesToPages numberOfBytes⟩ :: s.live⟩
    | (pool, .error _) => ⟨pool, s.live⟩
  | .free run => ⟨(nxPoolPagesFree s.pool (pageVa run.start 0)).1, s.live.erase run⟩
  | .other mem => ⟨{ s.pool with mem := mem }, s.live⟩

end Act

/-- Just initialised: nothing is mapped in the window. -/
def Boot (s : System) : Prop :=
  ∃ pool : Pool, s = ⟨nxPoolPagesInitialize pool, []⟩ ∧ Backed window pool.mem ∧
    (∀ i, window.Has i → pool.mem.pt i = 0) ∧ pool.scanHint = 0 ∧ pool.committed = 0

def Step (s : System) (a : Act) (t : System) : Prop := a.Admissible s ∧ t = a.apply s

def History : System → Prop := Reachable Boot Step

structure System.Ok (s : System) : Prop where
  backed : Backed window s.pool.mem
  tiles : Tiles s.live fun i => Bitmap.test s.pool.usedMap i = true
  inside : ∀ r ∈ s.live, r.start + r.count ≤ nxppPages
  entries : EntriesMatch s.pool
  runs : ∀ r ∈ s.live, s.pool.runPages r.start = r.count
  committed : s.pool.committed = (s.live.map Extent.count).sum

namespace System.Ok

variable {s : System}

theorem alloc (h : s.Ok) {bytes : Nat} (hbytes : bytesToPages bytes ≠ 0) :
    ((Act.alloc bytes).apply s).Ok := by
  rcases nxPoolPagesAlloc_spec h.backed h.entries bytes with
    ⟨e, pool, hcall, ⟨hrest, hcons, hentries⟩, -⟩ | ⟨start, mem, hint, hfind, hfill, hcall⟩
  · rw [Act.apply, hcall]
    rw [hrest]
    refine ⟨hcons.backed, h.tiles, h.inside, ?_, h.runs, h.committed⟩
    intro i hi
    rw [hentries _ (window_has.2 (by omega))]
    exact h.entries i hi
  rw [Act.apply, hcall]
  obtain ⟨hfit, htest⟩ := findRun_some hfind
  simp only [start_pageVa]
  have hbits : ∀ i, Bitmap.test (nxppSetRange s.pool.usedMap start (bytesToPages bytes) true) i =
      true ↔ Extent.Has ⟨start, bytesToPages bytes⟩ i ∨ Bitmap.test s.pool.usedMap i = true := by
    intro i
    rw [nxppSetRange, Bitmap.test_setRange]
    split_ifs with hi
    · exact ⟨fun _ => .inl hi, fun _ => rfl⟩
    · exact ⟨.inr, fun hor => hor.resolve_left hi⟩
  have hfree : ∀ i, Extent.Has ⟨start, bytesToPages bytes⟩ i →
      ¬Bitmap.test s.pool.usedMap i = true := by
    intro i hi
    rw [nxppTestRange_iff.1 htest i hi.1 hi.2]
    nofun
  have htiles := h.tiles.cons (Nat.pos_of_ne_zero hbytes) hfree hbits
  have hin : ∀ r ∈ (⟨start, bytesToPages bytes⟩ : Extent) :: s.live,
      r.start + r.count ≤ nxppPages :=
    List.forall_mem_cons.2 ⟨hfit, h.inside⟩
  refine ⟨hfill.conserves.backed, htiles, hin, ?_, List.forall_mem_cons.2 ⟨?_, ?_⟩, ?_⟩
  · intro i hi
    refine Iff.trans ?_ (hbits i).symm
    by_cases hir : Extent.Has ⟨start, bytesToPages bytes⟩ i
    · have hmapped := hfill.mapped (0xC1000 + i) (by have := hir.1; simp only at this; omega)
        (by have := hir.2; simp only at this; omega)
      exact ⟨fun _ => .inl hir, fun _ => hmapped⟩
    · have hkept := hfill.entries (0xC1000 + i) (window_has.2 (by omega)) (by
        intro hc
        exact hir ⟨by simp only; omega, by simp only; omega⟩)
      rw [hkept, h.entries i hi]
      exact ⟨.inr, fun hor => hor.resolve_left hir⟩
  · show update s.pool.runPages start _ start = bytesToPages bytes
    have : nxppPages < 2 ^ 16 := by decide
    rw [update_self]
    exact Nat.mod_eq_of_lt (by omega)
  · intro r hr
    have hne : r.start ≠ start := by
      intro he
      have hpos := h.tiles.pos r hr
      have hused := (h.tiles.used_iff start).2 ⟨r, hr, by omega, by omega⟩
      exact hfree start ⟨Nat.le_refl _, by simp only; omega⟩ hused
    show update s.pool.runPages start _ r.start = r.count
    rw [update_of_ne hne]
    exact h.runs r hr
  · have hsum := htiles.sum_le hin
    rw [List.map_cons, List.sum_cons] at hsum ⊢
    have hlt : nxppPages < 2 ^ 32 := by decide
    dsimp only at hsum
    rw [h.committed, wadd_of_lt (by omega)]
    exact Nat.add_comm ..

/-- The runs after a request, with the address it returned. -/
theorem alloc_live (h : s.Ok) (bytes : Nat) :
    ((nxPoolPagesAlloc s.pool bytes).2.toOption = none ∧
        ((Act.alloc bytes).apply s).live = s.live) ∨
      ∃ start, (nxPoolPagesAlloc s.pool bytes).2.toOption = some (pageVa start 0) ∧
        ((Act.alloc bytes).apply s).live = ⟨start, bytesToPages bytes⟩ :: s.live := by
  rcases nxPoolPagesAlloc_spec h.backed h.entries bytes with
    ⟨e, t, hcall, -⟩ | ⟨start, mem, hint, -, -, hcall⟩
  · rw [Act.apply, hcall]
    exact Or.inl ⟨rfl, rfl⟩
  · rw [Act.apply, hcall]
    refine Or.inr ⟨start, rfl, ?_⟩
    dsimp only
    rw [start_pageVa]

theorem free (h : s.Ok) {run : Extent} (hrun : run ∈ s.live) : ((Act.free run).apply s).Ok := by
  have hfit := h.inside run hrun
  rw [Act.apply, nxPoolPagesFree]
  simp only [start_pageVa, h.runs run hrun]
  have hmapped : ∀ k, 0 ≤ k → k < 0 + run.count →
      s.pool.mem.pt (0xC1000 + run.start + k) ≠ 0 := by
    intro k _ hk
    rw [Nat.add_assoc, h.entries _ (by omega)]
    exact (h.tiles.used_iff _).2 ⟨run, hrun, by omega, by omega⟩
  have hempty := releaseRun_spec h.backed (by omega) hmapped
  have hbits : ∀ i, Bitmap.test (nxppSetRange s.pool.usedMap run.start run.count false) i = true ↔
      Bitmap.test s.pool.usedMap i = true ∧ ¬run.Has i := by
    intro i
    rw [nxppSetRange, Bitmap.test_setRange]
    split_ifs with hi
    · exact ⟨nofun, fun hand => absurd hi hand.2⟩
    · exact ⟨fun ht => ⟨ht, hi⟩, And.left⟩
  refine ⟨hempty.conserves.backed, h.tiles.erase hrun hbits, ?_, ?_, ?_, ?_⟩
  · intro r hr
    exact h.inside r (List.mem_of_mem_erase hr)
  · intro i hi
    rw [hbits, hempty.entries _ (window_has.2 (by omega)), ← h.entries i hi]
    by_cases hir : run.Has i
    · have := hir.1
      have := hir.2
      rw [if_pos (by omega)]
      exact ⟨absurd rfl, fun hand => absurd hir hand.2⟩
    · have hout : ¬(0xC1000 + run.start + 0 ≤ 0xC1000 + i ∧
          0xC1000 + i < 0xC1000 + run.start + 0 + run.count) := by
        rintro ⟨h1, h2⟩
        exact hir ⟨by omega, by omega⟩
      rw [if_neg hout]
      exact ⟨fun hne => ⟨hne, hir⟩, And.left⟩
  · intro r hr
    obtain ⟨hne, hr⟩ := h.tiles.nodup.mem_erase_iff.1 hr
    have hstart : r.start ≠ run.start := fun he => hne (h.tiles.eq_of_start hr hrun he)
    show update s.pool.runPages run.start 0 r.start = r.count
    rw [update_of_ne hstart]
    exact h.runs r hr
  · have hsum : (s.live.map Extent.count).sum =
        run.count + ((s.live.erase run).map Extent.count).sum := by
      rw [((List.perm_cons_erase hrun).map Extent.count).sum_eq, List.map_cons, List.sum_cons]
    have hle := h.tiles.sum_le h.inside
    have hlt : nxppPages < 2 ^ 32 := by decide
    rw [h.committed, wsub_of_le (by omega) (by omega), hsum, Nat.add_sub_cancel_left]

theorem other (h : s.Ok) {mem : Machine} (hb : Backed window mem)
    (hsame : ∀ i, window.Has i → (mem.pt i = 0 ↔ s.pool.mem.pt i = 0)) :
    ((Act.other mem).apply s).Ok := by
  refine ⟨hb, h.tiles, h.inside, ?_, h.runs, h.committed⟩
  intro i hi
  show mem.pt _ ≠ 0 ↔ _
  rw [Ne, hsame _ (window_has.2 (by omega))]
  exact h.entries i hi

theorem step (h : s.Ok) {a : Act} {t : System} (hst : Step s a t) : t.Ok := by
  obtain ⟨hadm, rfl⟩ := hst
  cases a with
  | alloc bytes => exact h.alloc hadm
  | free run => exact h.free hadm
  | other mem => exact h.other hadm.1 hadm.2

theorem boot (h : Boot s) : s.Ok := by
  obtain ⟨pool, rfl, hb, hpt, -, hcommitted⟩ := h
  have hclear : ∀ i, ¬Bitmap.test (nxPoolPagesInitialize pool).usedMap i = true := by
    intro i
    simp [nxPoolPagesInitialize, Bitmap.test]
  refine ⟨hb, .nil hclear, nofun, ?_, nofun, hcommitted⟩
  intro i hi
  exact ⟨fun hne => absurd (hpt _ (window_has.2 (by omega))) hne, fun ht => absurd ht (hclear i)⟩

theorem history (h : History s) : s.Ok := by
  refine Reachable.invariant ?_ ?_ h
  · intro s hs
    exact boot hs
  · intro s a t hok hst
    exact hok.step hst

end System.Ok

/-- Every state of every history of the pool window.  The bitmap is the disjoint
union of the live runs, an entry of the window is set exactly for a used page,
and the counter is their total length.  A request that fails for want of address
space has no place to go, and a request that fails for any reason leaves bitmap,
entries and counter alone: the pages it took are back in the supply, except new
page tables. -/
theorem pool_pages_consistent {s : System} (h : History s) :
    s.live.Pairwise Extent.Apart ∧ (∀ r ∈ s.live, r.start + r.count ≤ nxppPages) ∧
    (∀ i, Bitmap.test s.pool.usedMap i = true ↔ ∃ r ∈ s.live, r.Has i) ∧
    (∀ i, i < nxppPages → (s.pool.mem.pt (pteIndex (pageVa 0 i)) ≠ 0 ↔
      Bitmap.test s.pool.usedMap i = true)) ∧
    s.pool.committed = (s.live.map Extent.count).sum ∧
    ∀ bytes, bytesToPages bytes ≠ 0 → ∀ t e, nxPoolPagesAlloc s.pool bytes = (t, .error e) →
      (e = .windowFull → ∀ start, start + bytesToPages bytes ≤ nxppPages →
        ∃ i, start ≤ i ∧ i < start + bytesToPages bytes ∧
          Bitmap.test s.pool.usedMap i = true) ∧
      t.usedMap = s.pool.usedMap ∧ t.committed = s.pool.committed ∧
      (∀ i, i < nxppPages →
        t.mem.pt (pteIndex (pageVa 0 i)) = s.pool.mem.pt (pteIndex (pageVa 0 i))) ∧
      ∀ p, (t.mem.supply.free p = true → s.pool.mem.supply.free p = true) ∧
        (s.pool.mem.supply.free p = true → t.mem.supply.free p = true ∨
          ∃ d, window.Table d ∧ present (s.pool.mem.pt d) = false ∧
            present (t.mem.pt d) = true ∧ frame (t.mem.pt d) = p) := by
  have hok := System.Ok.history h
  have hindex : ∀ i, pteIndex (pageVa 0 i) = 0xC1000 + i := pteIndex_pageVa 0
  refine ⟨hok.tiles.apart, hok.inside, hok.tiles.used_iff, ?_, hok.committed, ?_⟩
  · intro i hi
    rw [hindex]
    exact hok.entries i hi
  intro bytes _ t e hcall
  rcases nxPoolPagesAlloc_spec hok.backed hok.entries bytes with
    ⟨_, _, hspec, ⟨hrest, hcons, hentries⟩, hfull⟩ | ⟨_, _, _, -, -, hspec⟩ <;>
    cases hcall.symm.trans hspec
  refine ⟨?_, by rw [hrest], by rw [hrest], ?_, hcons.free_of_same hok.backed hentries⟩
  · intro he start hfit
    have htest := findRun_none (hfull he) hfit
    by_contra hnone
    refine absurd (htest.symm.trans (nxppTestRange_iff.2 ?_)) nofun
    intro i h1 h2
    by_contra hused
    exact hnone ⟨i, h1, h2, by simpa using hused⟩
  · intro i hi
    rw [hindex]
    exact hentries _ (window_has.2 (by omega))

/-- A window just initialised, over a supply of three pages. -/
def emptyWindow : System :=
  ⟨nxPoolPagesInitialize
    ⟨⟨fun _ => 0, [Op.giveBack 0x3400, .giveBack 0x3401, .giveBack 0x3402].foldl Op.apply
      (Supply.nxkPageSupplyInitialize 0x3FFF true)⟩, false, fun _ => 0, fun _ => 0, 0, 0⟩, []⟩

theorem emptyWindow_boot : Boot emptyWindow := by
  have hinv : Inv emptyWindow.pool.mem.supply :=
    Inv.reached (by decide) (by decide) (Reached.ops (.start rfl) _ (by decide))
  exact ⟨_, rfl, .bare window hinv, fun _ _ => rfl, rfl, rfl⟩

/-- One page is allocated.  A request for two more gets one and has to give it
back. -/
def onePage : System := (Act.alloc 0x1000).apply emptyWindow

theorem pool_pages_consistent_onePage :
    History onePage ∧ onePage.live = [⟨0, 1⟩] ∧
      (nxPoolPagesAlloc onePage.pool 0x2000).1.committed = onePage.pool.committed := by
  have h : History onePage :=
    .next (.alloc 0x1000) (.start emptyWindow_boot)
      ⟨show bytesToPages 0x1000 ≠ 0 by decide, rfl⟩
  have hfail : nxPoolPagesAlloc onePage.pool 0x2000 =
      ((nxPoolPagesAlloc onePage.pool 0x2000).1, .error .noPages) := rfl
  obtain ⟨-, -, -, -, -, hcalls⟩ := pool_pages_consistent h
  exact ⟨h, rfl, (hcalls 0x2000 (by decide) _ _ hfail).2.2.1⟩

end Roswell.Ports.PoolPages
