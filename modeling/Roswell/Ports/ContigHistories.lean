import Roswell.Ports.ContigRuns

/-!
# What contiguous memory promises its callers

Two results about histories of `System`.

* Allocations and frees of several threads, and growth of the table: every live
  allocation has one entry of its own, a query returns its size, and freeing it
  returns exactly its pages.  The second attempt of an allocation must find its
  slot still free.
* GPU instance claims mixed with allocations and frees: no page is free while a
  live allocation or the claim holds it, and a shrinking claim returns only
  pages that claims took.  Growing claims must be covered.
-/

namespace Roswell.Ports.Contig

open Verified.Runs PageSupply Function
open PageTables (pageSize)

/-! ## The tracking table -/

/-- The steps of allocations, frees and other users of the supply. -/
def Act.Allocator : Act → Prop
  | .claim _ => False
  | _ => True

/-- A second attempt finds the slot of the first still free. -/
def Act.SlotStillFree (s : System) : Act → Prop
  | .retry t =>
    match s.pcs t with
    | .retry _ slot => (s.tracking.table slot).kseg0Alias = 0
    | _ => True
  | _ => True

/-- The thread that takes a step, if it is one of the callers. -/
def Act.thread : Act → Option Nat
  | .call t _ => some t
  | .take t => some t
  | .growFails t => some t
  | .growSwaps t => some t
  | .reclaimed t _ => some t
  | .retry t => some t
  | .free t _ => some t
  | .giveBack t => some t
  | .claim _ => none
  | .foreign _ => none

/-- Steps of the allocator, with every second attempt at a free slot. -/
def Act.Tidy (s : System) (a : Act) : Prop := a.Allocator ∧ a.SlotStillFree s

theorem Act.Tidy.covered {s : System} {a : Act} (h : a.Tidy s) : a.ClaimCovered s := by
  cases a with
  | claim n => exact h.1.elim
  | _ => trivial

namespace Tracked

variable {s : System} {t : Nat}

/-- A take that is recorded in a free slot. -/
theorem recorded_finish (h : Tracked s) (hrec : Recorded s.tracking s.live) {w : Window}
    {slot hint base : Nat} {supply : Supply} {moves : List Supply.Move} (hw : w.Ok)
    (htake : takeContiguous s.tracking.supply w = (supply, base, moves)) (h0 : base ≠ 0)
    (hslot : slot < s.tracking.slots) (hfree : (s.tracking.table slot).kseg0Alias = 0) :
    Recorded (s.finish t w slot base { s.tracking with hint := hint, supply := supply }).tracking
      (s.finish t w slot base { s.tracking with hint := hint, supply := supply }).live := by
  obtain ⟨-, -, -, hrun⟩ := takeContiguous_spec h.supply htake
  have hword := h.supply.highest_lt
  unfold System.finish
  rw [recordRun_eq hw (by omega)]
  have hrec' : Recorded { s.tracking with hint := hint, supply := supply } s.live := hrec
  exact hrec'.record hslot hfree

/-- Steps of the allocator lose no entry. -/
theorem recorded_step (h : Tracked s) (hrec : Recorded s.tracking s.live) {a : Act}
    (htidy : a.Tidy s) : Recorded (a.apply s).tracking (a.apply s).live := by
  cases a with
  | call t r =>
    rw [Act.apply, System.call]
    repeat' split
    all_goals exact hrec
  | take t =>
    show Recorded (s.take t).tracking (s.take t).live
    rcases System.take_cases h.table.hint with hsame | ⟨w, hpc, hcases⟩
    · rw [hsame]
      exact hrec
    have hw := h.pc_ok hpc
    rcases hcases with ⟨hgrow, -⟩ | hfound
    · rw [hgrow]
      exact hrec
    · obtain ⟨slot, hint, supply, base, moves, hslot, -, hfree, htake, hres⟩ := hfound
      rcases hres with ⟨-, hfail⟩ | ⟨h0, hdone⟩
      · rw [hfail]
        exact hrec
      · rw [hdone]
        exact h.recorded_finish hrec hw htake h0 hslot hfree
  | growFails t =>
    rw [Act.apply, System.growFails]
    cases s.pcs t <;> exact hrec
  | growSwaps t =>
    rw [Act.apply, System.growSwaps]
    cases hpc : s.pcs t with
    | grow w oldSlots => exact hrec.grow (h.pc_ok hpc).2
    | _ => exact hrec
  | reclaimed t found =>
    rw [Act.apply, System.reclaimed]
    cases s.pcs t <;> exact hrec
  | retry t =>
    show Recorded (s.retry t).tracking (s.retry t).live
    rcases System.retry_cases (t := t) with hsame | hcases
    · rw [hsame]
      exact hrec
    obtain ⟨w, slot, supply, base, moves, hpc, htake, hres⟩ := hcases
    have hok := h.pc_ok hpc
    rcases hres with ⟨-, hfail⟩ | ⟨h0, hdone⟩
    · rw [hfail]
      exact hrec
    · rw [hdone]
      have hfree := htidy.2
      simp only [Act.SlotStillFree, hpc] at hfree
      exact h.recorded_finish hrec hok.1 htake h0 hok.2 hfree
  | free t va =>
    show Recorded (s.free t va).tracking (s.free t va).live
    rcases System.free_cases h.table h.pages va with hsame |
      ⟨i, hi, hva, hres⟩ | ⟨i, a, -, -, hi, hva, hres⟩
    · rw [hsame]
      exact hrec
    all_goals
      rw [hres]
      refine hrec.clear ?_
      rw [hi, hva]
      rfl
  | giveBack t =>
    rw [Act.apply, System.giveBack]
    cases s.pcs t <;> exact hrec
  | claim n => exact htidy.1.elim
  | foreign op => exact hrec

end Tracked

/-- A step moves the program counter of its own thread only. -/
theorem Act.apply_pcs {s : System} {t : Nat} {a : Act} (h : a.thread ≠ some t) :
    (a.apply s).pcs t = s.pcs t := by
  have hother : ∀ {u : Nat}, u ≠ t → ∀ pc : Pc, update s.pcs u pc t = s.pcs t :=
    fun hu _ => update_of_ne hu.symm ..
  cases a
  case claim n =>
    rw [Act.apply, System.nxMmClaimGpuInstanceMemory]
    split <;> rfl
  case foreign op => rfl
  all_goals
    -- the step does nothing, or it moves its own thread
    have hu := hother fun e => h (congrArg some e)
    simp only [Act.apply, System.call, System.take, System.growFails, System.growSwaps,
      System.reclaimed, System.retry, System.free, System.giveBack]
    repeat' split
    all_goals first | rfl | exact hu _

/-- The table describes the live allocations in every tidy history. -/
theorem tidy_recorded {s : System} (h : History (fun s a => a.Tidy s) s) :
    Tracked s ∧ Recorded s.tracking s.live := by
  refine Reachable.invariant (P := fun u => Tracked u ∧ Recorded u.tracking u.live) ?_ ?_ h
  · intro u hb
    refine ⟨Tracked.boot hb, ?_⟩
    intro a ha
    rw [hb.noLive] at ha
    contradiction
  · rintro u a _ ⟨hu, hrec⟩ ⟨hadm, hp, rfl⟩
    exact ⟨hu.step hadm hp.covered, hu.recorded_step hrec hp⟩

/-- Histories that go on after a free was begun by thread `t`, which takes no
further step. -/
def FreeingBy (t : Nat) (s : System) : System → Prop :=
  Reachable (· = s) (Step fun s a => a.Tidy s ∧ a.thread ≠ some t)

/-- In a history in which every second attempt finds its slot still free, each
live allocation has exactly one entry, with its own address, run and size.  A
query of its address returns the size that was asked for.  A free, begun by any
thread and finished after any steps of the others, returns exactly its pages,
none of which was free before. -/
theorem live_tracked {s : System} (h : History (fun s a => a.Tidy s) s) :
    s.live.Nodup ∧ ∀ a ∈ s.live,
      (∃ i, i < s.tracking.slots ∧ s.tracking.table i = a.entry ∧
        ∀ j, j < s.tracking.slots → (s.tracking.table j).kseg0Alias = a.kseg0Alias → j = i) ∧
      (∀ b ∈ s.live, b.kseg0Alias = a.kseg0Alias → b = a) ∧
      s.tracking.nxMmQueryAllocationSize a.kseg0Alias = a.size ∧
      ∀ t, s.pcs t = .idle → ∀ u, FreeingBy t (s.free t a.kseg0Alias) u →
        (∀ p, a.Has p → u.tracking.supply.free p = false) ∧
        ∀ p, (u.giveBack t).tracking.supply.free p = true ↔
          u.tracking.supply.free p = true ∨ a.Has p := by
  obtain ⟨htr, hrec⟩ := tidy_recorded h
  refine ⟨htr.table.nodup, ?_⟩
  intro a ha
  obtain ⟨i, hi, hia, hfind⟩ := htr.table.findAlias_recorded hrec ha
  refine ⟨⟨i, hi, hia, ?_⟩, fun b hb he => htr.alias_inj hb ha he, ?_, ?_⟩
  · intro j hj hja
    refine htr.table.unique j i hj hi ?_ ?_
    · rw [hja]
      exact a.kseg0Alias_ne_zero
    · rw [hja, hia]
      rfl
  · unfold Tracking.nxMmQueryAllocationSize
    rw [hfind]
    simp only [hia]
    rfl
  · intro t hidle u hu
    have hfreed : (s.free t a.kseg0Alias).pcs t =
        .returning (a.base * pageSize) ((a.base + a.pages) * pageSize) := by
      have hlt : a.entry.pa < a.entry.paEnd := by
        have := htr.pages a ha
        exact Nat.mul_lt_mul_of_pos_right (by omega) (by decide)
      unfold System.free Tracking.clearAlias
      simp only [hidle, hfind, hia, if_pos hlt]
      exact update_self ..
    have hstart : History (fun s a => a.Tidy s) (s.free t a.kseg0Alias) :=
      .next (.free t a.kseg0Alias) h ⟨trivial, ⟨trivial, trivial⟩, rfl⟩
    -- the thread that frees keeps its place while the others go on
    have hpc : u.pcs t = .returning (a.base * pageSize) ((a.base + a.pages) * pageSize) := by
      refine Reachable.invariant (P := fun v => v.pcs t = _) ?_ ?_ hu
      · intro v hv
        rw [hv]
        exact hfreed
      · rintro v b _ hv ⟨-, ⟨-, hother⟩, rfl⟩
        rw [Act.apply_pcs hother]
        exact hv
    have hreach : History (fun s a => a.Tidy s) u :=
      hstart.extend (fun _ _ _ hst => ⟨hst.1, hst.2.1.1, hst.2.2⟩) hu
    obtain ⟨supply, hret, hnot, hres⟩ :=
      (tidy_recorded hreach).1.giveBack_returned (htr.pages a ha) hpc
    refine ⟨fun p hp => hnot p (inRun_iff.2 hp), ?_⟩
    intro p
    rw [hres]
    show supply.free p = true ↔ _
    rw [hret.free, Bool.or_eq_true, inRun_iff, or_comm]
    rfl

/-- A machine with one free page. -/
def onePage (page : Nat) : Supply :=
  Op.apply (Supply.nxkPageSupplyInitialize 0x3FFF true) (.giveBack page)

theorem onePage_inv {page : Nat} (h0 : 1 ≤ page) (hle : page ≤ 0x3FFF) : Inv (onePage page) :=
  Inv.reached (by decide) (by decide)
    (.next (.giveBack page) (.start rfl)
      ⟨⟨h0, hle, entryFree_of_lt (show 0 < 2 ^ 30 by decide)⟩, rfl⟩)

/-- Contiguous memory at boot, over that machine. -/
def onePageSystem (page : Nat) : System :=
  ⟨⟨onePage page, fun _ => Entry.blank, nxkContigInitialSlots, 0⟩, 0, fun _ => .idle, [], []⟩

theorem onePageSystem_boot {page : Nat} (h0 : 1 ≤ page) (hle : page ≤ 0x3FFF) :
    Boot (onePageSystem page) :=
  ⟨onePage_inv h0 hle, fun _ => rfl, rfl, rfl, rfl, fun _ => rfl, rfl, rfl⟩

/-- Thread `t` allocates the page at `pa` in one attempt. -/
def allocatePage (t pa : Nat) : List Act := [.call t ⟨0x1000, pa, pa + 0xFFF, 0⟩, .take t]

theorem live_tracked_onePage :
    ⟨0x30, 1, 0x1000⟩ ∈ ((allocatePage 1 0x30000).foldl Act.apply (onePageSystem 0x30)).live ∧
      ((allocatePage 1 0x30000).foldl Act.apply
        (onePageSystem 0x30)).tracking.nxMmQueryAllocationSize 0x80030000 = 0x1000 := by
  have hlive : ⟨0x30, 1, 0x1000⟩ ∈
      ((allocatePage 1 0x30000).foldl Act.apply (onePageSystem 0x30)).live := by decide +kernel
  have h : History (fun s a => a.Tidy s)
      ((allocatePage 1 0x30000).foldl Act.apply (onePageSystem 0x30)) := by
    refine Reachable.foldl (.start (onePageSystem_boot (by decide) (by decide))) _ ?_
    intro a ha u
    rw [allocatePage, List.mem_cons, List.mem_singleton] at ha
    rcases ha with rfl | rfl
    · exact ⟨trivial, ⟨trivial, trivial⟩, rfl⟩
    · exact ⟨trivial, ⟨trivial, trivial⟩, rfl⟩
  exact ⟨hlive, ((live_tracked h).2 _ hlive).2.2.1⟩

/-- Thread 1 finds slot 0 but no page for its request, and gives up the lock to
reclaim pool pages. -/
def staleStart : List Act := allocatePage 1 0x20000

/-- Thread 2 goes once around the table with requests that do not fit, takes
slot 0, and thread 1 records its run there too. -/
def staleEnd : List Act :=
  (List.replicate 63
    [Act.call 2 ⟨0x5000000, 0, 0xFFFFFFFF, 0⟩, .take 2, .reclaimed 2 false]).flatten ++
    allocatePage 2 0x30000 ++ [.reclaimed 1 true, .retry 1]

/-- The state between the two parts. -/
def staleMiddle : System := staleStart.foldl Act.apply (onePageSystem 0x30)

/-- The state after both, with the reclaimed page returned to the supply in
between. -/
def staleSystem : System :=
  staleEnd.foldl Act.apply (Act.apply staleMiddle (.foreign (.giveBack 0x20)))

/-- The reclaimed page is held by nobody. -/
theorem staleMiddle_holds (k : Holder) (p : Nat) : ¬staleMiddle.Holds k p := by
  have hlive : staleMiddle.live = [] := by decide +kernel
  have htaken : staleMiddle.taken = [] := by decide +kernel
  have hpc : staleMiddle.pcs 1 = .reclaim ⟨0x1000, 0x1000, 1, 0x20, 0x20, 1⟩ 0 := by
    decide +kernel
  intro hk
  cases k with
  | live a =>
    have ha := hk.1
    contradiction
  | claim =>
    have hp : p ∈ staleMiddle.taken := hk
    contradiction
  | thread u =>
    have hu : (staleMiddle.pcs u).Has p := hk
    by_cases h1 : u = 1
    · rw [h1, hpc] at hu
      exact hu
    have hother : ∀ a ∈ staleStart, a.thread ≠ some u := by
      intro a ha
      rw [staleStart, allocatePage, List.mem_cons, List.mem_singleton] at ha
      rcases ha with rfl | rfl <;> exact fun e => h1 (Option.some.inj e).symm
    have hidle : staleMiddle.pcs u = .idle := by
      rw [staleMiddle, staleStart, allocatePage, List.foldl_cons, List.foldl_cons,
        List.foldl_nil]
      rw [Act.apply_pcs (hother _ (by simp [staleStart, allocatePage])),
        Act.apply_pcs (hother _ (by simp [staleStart, allocatePage]))]
      rfl
    rw [hidle] at hu
    exact hu

/-- The second attempt of thread 1 overwrites the entry of a live allocation:
its size is no longer found. -/
theorem stale_slot_loses_entry :
    History (fun _ a => a.Allocator) staleSystem ∧
      ⟨0x30, 1, 0x1000⟩ ∈ staleSystem.live ∧
      staleSystem.tracking.nxMmQueryAllocationSize 0x80030000 = 0 := by
  refine ⟨?_, by decide +kernel, by decide +kernel⟩
  have hstart : History (fun _ a => a.Allocator) staleMiddle := by
    refine Reachable.foldl (.start (onePageSystem_boot (by decide) (by decide))) _ ?_
    intro a ha u
    rw [staleStart, allocatePage, List.mem_cons, List.mem_singleton] at ha
    rcases ha with rfl | rfl <;> exact ⟨trivial, trivial, rfl⟩
  have hreclaim : History (fun _ a => a.Allocator)
      (Act.apply staleMiddle (.foreign (.giveBack 0x20))) := by
    refine .next (.foreign (.giveBack 0x20)) hstart ⟨⟨?_, fun k p _ => staleMiddle_holds k p⟩, trivial, rfl⟩
    exact ⟨by decide +kernel, by decide +kernel, by decide +kernel⟩
  refine Reachable.foldl hreclaim _ ?_
  intro a ha u
  simp only [staleEnd, allocatePage, List.mem_append, List.mem_flatten, List.mem_replicate,
    List.mem_cons, List.not_mem_nil, or_false] at ha
  rcases ha with (⟨l, ⟨-, rfl⟩, hal⟩ | rfl | rfl) | rfl | rfl
  · simp only [List.mem_cons, List.not_mem_nil, or_false] at hal
    rcases hal with rfl | rfl | rfl <;> exact ⟨trivial, trivial, rfl⟩
  all_goals exact ⟨trivial, trivial, rfl⟩

/-! ## The GPU instance claim -/

/-- In a history whose growing claims are covered, no free page belongs to a
live allocation or to the current claim.  A claim that shrinks returns exactly
the pages it gives up, each of which claims took from the supply and had not
returned. -/
theorem claim_exclusive {s : System} (h : History (fun s a => a.ClaimCovered s) s) :
    (∀ p, s.tracking.supply.free p = true →
      (∀ a ∈ s.live, ¬a.Has p) ∧ ¬(claimLow s.instanceBytes ≤ p ∧ p < claimTop)) ∧
    ∀ n, s.claimReturns n ≠ [] →
      (∀ p ∈ s.claimReturns n, p ∈ s.taken) ∧
      ∀ p, (s.nxMmClaimGpuInstanceMemory n).tracking.supply.free p = true ↔
        s.tracking.supply.free p = true ∨ p ∈ s.claimReturns n := by
  have htr := Tracked.history (fun _ _ hp => hp) h
  have hnot : ∀ k p, s.Holds k p → s.tracking.supply.free p ≠ true := by
    intro k p hk hf
    rw [(htr.held.pinned hk).not_free] at hf
    contradiction
  refine ⟨?_, ?_⟩
  · intro p hf
    refine ⟨fun a ha hp => hnot (.live a) p ⟨ha, hp⟩ hf, ?_⟩
    intro hp
    exact hnot .claim p ((htr.taken p).2 hp) hf
  intro n hne
  have hn : n ≠ maxUlongPtr := by
    intro e
    unfold System.claimReturns at hne
    simp only [if_pos e] at hne
    exact hne rfl
  have hret : ∀ p, p ∈ s.claimReturns n ↔
      inRun (claimLow s.instanceBytes)
        (claimLow (claimBytes n) - claimLow s.instanceBytes) p = true := by
    intro p
    unfold System.claimReturns
    simp only [if_neg hn]
    rw [List.mem_range'_1, inRun_iff]
  have hnew := claimLow_bounds (claimBytes_le n)
  refine ⟨?_, ?_⟩
  · intro p hp
    rw [hret, inRun_iff] at hp
    exact (htr.taken p).2 (by omega)
  · have hlow : claimLow s.instanceBytes ≤ claimLow (claimBytes n) := by
      obtain ⟨p, hp⟩ := List.exists_mem_of_ne_nil _ hne
      rw [hret, inRun_iff] at hp
      omega
    intro p
    rw [(htr.claimShrinks hn hlow).1.free, hret, Bool.or_eq_true, or_comm]

/-- A claim of one page that is free. -/
def onePageClaimed : System := Act.apply (onePageSystem 0x3FEF) (.claim 0x1000)

theorem claim_exclusive_onePage :
    onePageClaimed.claimReturns 0 = [0x3FEF] ∧ 0x3FEF ∈ onePageClaimed.taken := by
  have hret : onePageClaimed.claimReturns 0 = [0x3FEF] := by decide +kernel
  have hcov : Act.ClaimCovered (onePageSystem 0x3FEF) (.claim 0x1000) := by
    refine .inr ⟨?_, by decide +kernel⟩
    intro p h1 h2
    have hlow : claimLow (claimBytes 0x1000) = 0x3FEF := by decide +kernel
    have hold : claimLow (onePageSystem 0x3FEF).instanceBytes = 0x3FF0 := by decide +kernel
    obtain rfl : p = 0x3FEF := by omega
    exact ⟨by decide +kernel, .inl (by decide +kernel)⟩
  have h : History (fun s a => a.ClaimCovered s) onePageClaimed :=
    .next (.claim 0x1000) (.start (onePageSystem_boot (by decide) (by decide)))
      ⟨trivial, hcov, rfl⟩
  have hne : onePageClaimed.claimReturns 0 ≠ [] := by
    exact List.cons_ne_nil _ _
  refine ⟨hret, ((claim_exclusive h).2 0 hne).1 0x3FEF ?_⟩
  exact List.mem_singleton.2 rfl

/-- A page of the instance window is pinned by an allocation, a claim asks for
it, and the claim is given up again. -/
def failedClaim : System :=
  (allocatePage 1 0x3FEF000 ++ [Act.claim 0x1000, .claim 0]).foldl Act.apply (onePageSystem 0x3FEF)

/-- The claim that could not take the page returns it all the same: it is on a
free list while the allocation is live. -/
theorem failed_claim_frees_live :
    History (fun _ _ => True) failedClaim ∧ ⟨0x3FEF, 1, 0x1000⟩ ∈ failedClaim.live ∧
      failedClaim.tracking.supply.free 0x3FEF = true := by
  refine ⟨?_, by decide +kernel, by decide +kernel⟩
  refine Reachable.foldl (.start (onePageSystem_boot (by decide) (by decide))) _ ?_
  intro a ha u
  simp only [allocatePage, List.mem_append, List.mem_cons, List.not_mem_nil, or_false] at ha
  rcases ha with (rfl | rfl) | rfl | rfl <;> exact ⟨trivial, trivial, rfl⟩

end Roswell.Ports.Contig
