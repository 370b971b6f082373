import Roswell.Ports.ContigClaim
import Roswell.Verified.Holdings

/-!
# Histories of contiguous memory

The invariant of `System` and what it gives.  A page is held by a live
allocation, by a thread between the two lock holds of a free, or by the GPU
instance claim; held pages are pinned in the supply and have one holder.

Two places of the source break the bookkeeping, each under its own condition:

* the second attempt of an allocation records into the slot it found before it
  gave up the lock, so the entry of another allocation can be lost
  (`Act.SlotStillFree`);
* a claim is recorded in full even when some of its pages could not be taken
  (`Act.ClaimCovered`).
-/

namespace Roswell.Ports.Contig

open Verified.Word Verified.Runs Verified.Holdings PageSupply Function
open PageTables (pageSize)

/-- The first page above a claim. -/
def claimTop : Nat := nxkNv2aHeapCeiling >>> pageShift

/-- What a thread carries between its lock holds. -/
def Pc.Ok (c : Tracking) : Pc → Prop
  | .idle => True
  | .takeSlot w => w.Ok
  | .grow w oldSlots => w.Ok ∧ oldSlots ≤ 2 ^ 15
  | .reclaim w slot => w.Ok ∧ slot < c.slots
  | .retry w slot => w.Ok ∧ slot < c.slots
  | .returning pa paEnd =>
    ∃ base pages, pa = base * pageSize ∧ paEnd = (base + pages) * pageSize ∧ 0 < pages

theorem Pc.Ok.slots {c c' : Tracking} {pc : Pc} (h : pc.Ok c) (hle : c.slots ≤ c'.slots) :
    pc.Ok c' := by
  cases pc with
  | idle => trivial
  | takeSlot w => exact h
  | grow w oldSlots => exact h
  | reclaim w slot | retry w slot => exact ⟨h.1, Nat.lt_of_lt_of_le h.2 hle⟩
  | returning pa paEnd => exact h

/-- The pages of a run given by its first and last address. -/
theorem Pc.has_returning {base pages page : Nat} :
    (Pc.returning (base * pageSize) ((base + pages) * pageSize)).Has page ↔
      base ≤ page ∧ page < base + pages := by
  have hpos : 0 < pageSize := by decide
  show base * pageSize ≤ page * pageSize ∧ page * pageSize < (base + pages) * pageSize ↔ _
  rw [Nat.mul_le_mul_right_iff hpos, Nat.mul_lt_mul_right hpos]

/-- The invariant of the system. -/
structure Tracked (s : System) : Prop where
  supply : Inv s.tracking.supply
  table : TableOk s.tracking s.live
  pages : ∀ a ∈ s.live, 0 < a.pages
  held : Held s.tracking.supply.Pinned s.Holds
  pcs : ∀ t, (s.pcs t).Ok s.tracking
  taken : ∀ p, p ∈ s.taken ↔ claimLow s.instanceBytes ≤ p ∧ p < claimTop
  claim : s.instanceBytes ≤ nxkNv2aInstanceBytes

namespace Tracked

variable {s : System} {t : Nat}

theorem boot (h : Boot s) : Tracked s := by
  have hpc : ∀ u p, ¬(s.pcs u).Has p := by
    intro u p
    rw [h.idle u]
    exact id
  have hno : ∀ k p, ¬s.Holds k p := by
    intro k p hk
    cases k with
    | live a =>
      have ha := hk.1
      rw [h.noLive] at ha
      contradiction
    | thread u => exact hpc u p hk
    | claim =>
      have hp : p ∈ s.taken := hk
      rw [h.noTaken] at hp
      contradiction
  refine ⟨h.supply, ⟨?_, ?_, ?_, ?_, ?_⟩, ?_, ⟨?_, ?_⟩, ?_, ?_, ?_⟩
  · rw [h.noLive]
    exact List.nodup_nil
  · intro i _
    exact .inl (h.table i)
  · intro i j _ _ hne _
    rw [h.table i] at hne
    exact absurd rfl hne
  · rw [h.hint, h.slots]
    decide
  · rw [h.slots]
    decide
  · intro a ha
    rw [h.noLive] at ha
    contradiction
  · intro k p hk
    exact absurd hk (hno k p)
  · intro k _ p hk
    exact absurd hk (hno k p)
  · intro u
    rw [h.idle u]
    trivial
  · intro p
    rw [h.noTaken, h.unclaimed, show claimLow 0 = claimTop from rfl]
    simp
  · rw [h.unclaimed]
    exact Nat.zero_le _

/-- A live allocation lies in the page table. -/
theorem live_lt (h : Tracked s) {a : Allocation} (ha : a ∈ s.live) {p : Nat} (hp : a.Has p) :
    p ≠ 0 ∧ p < 2 ^ 15 := by
  have hpin := h.held.pinned (i := .live a) ⟨ha, hp⟩
  have hlt := h.supply.highest_lt
  have hle := hpin.2.1
  exact ⟨hpin.1, by omega⟩

theorem base_has (h : Tracked s) {a : Allocation} (ha : a ∈ s.live) : a.Has a.base := by
  have := h.pages a ha
  exact ⟨Nat.le_refl _, by omega⟩

/-- The address of a live allocation identifies it. -/
theorem alias_inj (h : Tracked s) {a b : Allocation} (ha : a ∈ s.live) (hb : b ∈ s.live)
    (he : a.kseg0Alias = b.kseg0Alias) : a = b := by
  have hbase := Allocation.base_eq he
  have hhas : b.Has a.base := hbase ▸ h.base_has hb
  have hk := h.held.apart (i := .live a) (j := .live b) ⟨ha, h.base_has ha⟩ ⟨hb, hhas⟩
  exact Holder.live.inj hk

theorem pc_ok (h : Tracked s) {pc : Pc} (hpc : s.pcs t = pc) : pc.Ok s.tracking :=
  hpc ▸ h.pcs t

/-- What a thread holds after one of them moved. -/
theorem has_update {pcs : Nat → Pc} {pc : Pc} {u p : Nat} (h : (update pcs t pc u).Has p) :
    u = t ∧ pc.Has p ∨ u ≠ t ∧ (pcs u).Has p :=
  of_update (P := (Pc.Has · p)) h

/-- A thread moves on inside a call and holds no pages there. -/
theorem setPc (h : Tracked s) {pc : Pc} (hok : pc.Ok s.tracking) (hnone : ∀ p, ¬pc.Has p) :
    Tracked (s.setPc t pc) := by
  refine ⟨h.supply, h.table, h.pages, ?_, ?_, h.taken, h.claim⟩
  · have hsub : ∀ k p, (s.setPc t pc).Holds k p → s.Holds k p := by
      intro k p hk
      cases k with
      | live a => exact hk
      | claim => exact hk
      | thread u => exact ((has_update hk).resolve_left fun hu => hnone p hu.2).2
    exact h.held.shrink hsub (fun k p hk => h.held.pinned (hsub k p hk))
  · exact (forall_update_iff s.pcs fun _ pc => pc.Ok s.tracking).2 ⟨hok, fun u _ => h.pcs u⟩

/-- The table or the supply changes under the held pages. -/
theorem setTracking (h : Tracked s) {c : Tracking} (hinv : Inv c.supply)
    (htab : TableOk c s.live) (hkeep : ∀ k p, s.Holds k p → c.supply.Pinned p)
    (hle : s.tracking.slots ≤ c.slots) : Tracked { s with tracking := c } := by
  refine ⟨hinv, htab, h.pages, ?_, fun u => (h.pcs u).slots hle, h.taken, h.claim⟩
  refine h.held.shrink ?_ ?_
  · intro k p hk
    cases k <;> exact hk
  · intro k p hk
    refine hkeep k p ?_
    cases k <;> exact hk

/-- A run that was taken is recorded and returned. -/
theorem finish (h : Tracked s) {c : Tracking} {w : Window} {slot base : Nat} (hw : w.Ok)
    (htab : TableOk c s.live) (hslots : c.slots = s.tracking.slots)
    (hrun : PinnedRun s.tracking.supply c.supply base w.runPages)
    (hle : base + w.runPages ≤ s.tracking.supply.highestPfn + 1) :
    Tracked (s.finish t w slot base c) := by
  obtain ⟨a, ha⟩ : ∃ a : Allocation, a = ⟨base, w.runPages, w.numberOfBytes⟩ := ⟨_, rfl⟩
  have hword := h.supply.highest_lt
  have hhas : ∀ p, a.Has p ↔ inRun base w.runPages p = true := by
    intro p
    rw [inRun_iff, ha]
    rfl
  have hfresh : ∀ b ∈ s.live, b.base ≠ a.base := by
    intro b hb he
    have hpos := hw.1
    have hin : inRun base w.runPages b.base = true := by
      rw [inRun_iff, he, ha]
      exact ⟨Nat.le_refl base, Nat.lt_add_of_pos_right hpos⟩
    exact hrun.fresh _ hin (h.held.pinned (i := .live b) ⟨hb, h.base_has hb⟩)
  have hfin : s.finish t w slot base c =
      { s with
        tracking := { c with table := update c.table slot a.entry }
        live := a :: s.live
        pcs := update s.pcs t .idle } := by
    rw [System.finish, recordRun_eq hw (by omega), ← ha]
  rw [hfin]
  refine ⟨hrun.inv, htab.record hfresh, ?_, ?_, ?_, h.taken, h.claim⟩
  · intro b hb
    rcases List.mem_cons.1 hb with rfl | hb
    · rw [ha]
      exact hw.1
    · exact h.pages b hb
  · refine h.held.grant (.live a) a.Has hrun.keep ?_ ?_ ?_
    · intro p hp
      exact hrun.fresh p ((hhas p).1 hp)
    · intro p hp
      exact hrun.run p ((hhas p).1 hp)
    intro k p hk
    cases k with
    | claim => exact .inl hk
    | live b =>
      obtain ⟨hb, hp⟩ := hk
      rcases List.mem_cons.1 hb with rfl | hb
      · exact .inr ⟨rfl, hp⟩
      · exact .inl ⟨hb, hp⟩
    | thread u => exact .inl ((has_update hk).resolve_left And.right).2
  · exact (forall_update_iff s.pcs fun _ pc => pc.Ok _).2
      ⟨trivial, fun u _ => (h.pcs u).slots (Nat.le_of_eq hslots.symm)⟩

end Tracked

/-! ## What the steps do -/

namespace System

variable {s : System} {t : Nat}

/-- The outcomes of the first lock hold of an allocation. -/
theorem take_cases (hhint : s.tracking.hint < s.tracking.slots) :
    s.take t = s ∨ ∃ w, s.pcs t = .takeSlot w ∧
      ((s.take t = s.setPc t (.grow w s.tracking.slots) ∧
          ∀ i, i < s.tracking.slots → (s.tracking.table i).kseg0Alias ≠ 0) ∨
        ∃ slot hint supply base moves, slot < s.tracking.slots ∧ hint < s.tracking.slots ∧
          (s.tracking.table slot).kseg0Alias = 0 ∧
          takeContiguous s.tracking.supply w = (supply, base, moves) ∧
          (base = 0 ∧ s.take t =
              { s with tracking := { s.tracking with hint := hint, supply := supply } }.setPc t
                (.reclaim w slot) ∨
            base ≠ 0 ∧ s.take t = s.finish t w slot base
              { s.tracking with hint := hint, supply := supply })) := by
  unfold System.take
  cases hpc : s.pcs t with
  | takeSlot w =>
    right
    refine ⟨w, rfl, ?_⟩
    rcases Tracking.findFreeSlot_spec hhint with hfound | ⟨hfull, hall⟩
    · obtain ⟨slot, hint, hfind, hslot, hlt, hfree⟩ := hfound
      obtain ⟨supply, base, moves, htake⟩ : ∃ supply base moves,
        takeContiguous s.tracking.supply w = (supply, base, moves) := ⟨_, _, _, rfl⟩
      refine .inr ⟨slot, hint, supply, base, moves, hslot, hlt, hfree, htake, ?_⟩
      simp only [hfind, htake, if_neg (Nat.ne_of_lt hslot)]
      by_cases h0 : base = 0
      · exact .inl ⟨h0, by rw [if_pos h0]⟩
      · exact .inr ⟨h0, by rw [if_neg h0]⟩
    · simp only [hfull, if_true]
      exact .inl ⟨trivial, hall⟩
  | _ => exact .inl rfl

/-- The outcomes of the second lock hold of an allocation. -/
theorem retry_cases :
    s.retry t = s ∨ ∃ w slot supply base moves, s.pcs t = .retry w slot ∧
      takeContiguous s.tracking.supply w = (supply, base, moves) ∧
      (base = 0 ∧ s.retry t =
          { s with tracking := { s.tracking with supply := supply } }.setPc t .idle ∨
        base ≠ 0 ∧ s.retry t =
          s.finish t w slot base { s.tracking with supply := supply }) := by
  unfold System.retry
  cases hpc : s.pcs t with
  | retry w slot =>
    rcases htake : takeContiguous s.tracking.supply w with ⟨supply, base, moves⟩
    refine .inr ⟨w, slot, supply, base, moves, rfl, htake, ?_⟩
    simp only [htake]
    by_cases h0 : base = 0
    · exact .inl ⟨h0, by rw [if_pos h0]⟩
    · exact .inr ⟨h0, by rw [if_neg h0]⟩
  | _ => exact .inl rfl

/-- The outcomes of the first lock hold of a free.  A null address finds a
blank entry, and nothing is returned for it. -/
theorem free_cases {live : List Allocation} (htab : TableOk s.tracking live)
    (hpages : ∀ a ∈ live, 0 < a.pages) (va : Nat) :
    s.free t va = s ∨
      (∃ i, s.tracking.table i = Entry.blank ∧ va = 0 ∧ s.free t va =
        { s with
          tracking.table := update s.tracking.table i Entry.blank
          live := s.live.filter fun a => a.kseg0Alias ≠ va }.setPc t .idle) ∨
      ∃ i a, i < s.tracking.slots ∧ a ∈ live ∧ s.tracking.table i = a.entry ∧
        va = a.kseg0Alias ∧ s.free t va =
          { s with
            tracking.table := update s.tracking.table i Entry.blank
            live := s.live.filter fun b => b.kseg0Alias ≠ va }.setPc t
            (.returning (a.base * pageSize) ((a.base + a.pages) * pageSize)) := by
  unfold System.free Tracking.clearAlias
  split
  case h_2 => exact .inl rfl
  cases hfind : s.tracking.findAlias va with
  | none => exact .inl rfl
  | some i =>
    right
    obtain ⟨hi, hva⟩ := Tracking.findAlias_some hfind
    rcases htab.entries i hi with hblank | ⟨a, ha, hia⟩
    · refine .inl ⟨i, hblank, ?_, ?_⟩
      · rw [← hva, hblank]
        rfl
      · simp only [hblank]
        rfl
    · refine .inr ⟨i, a, hi, ha, hia, ?_, ?_⟩
      · rw [← hva, hia]
        rfl
      · have hlt : a.entry.pa < a.entry.paEnd := by
          have := hpages a ha
          exact Nat.mul_lt_mul_of_pos_right (by omega) (by decide)
        simp only [hia, if_pos hlt]
        rfl

end System

/-! ## The invariant along a step -/

/-- Every page a growing claim has to take is free or has an owner, and the
generic pages on the free lists suffice. -/
def System.ClaimCovered (s : System) (numberOfBytes : Nat) : Prop :=
  numberOfBytes = maxUlongPtr ∨
    (∀ p, claimLow (claimBytes numberOfBytes) ≤ p → p < claimLow s.instanceBytes →
        p ≤ s.tracking.supply.highestPfn ∧ s.tracking.supply.Takeable p) ∧
      claimLow s.instanceBytes - claimLow (claimBytes numberOfBytes) ≤
        s.tracking.supply.genericAvail

/-- The condition on claims.  Other steps meet it. -/
def Act.ClaimCovered (s : System) : Act → Prop
  | .claim numberOfBytes => s.ClaimCovered numberOfBytes
  | _ => True

theorem claimBytes_le (numberOfBytes : Nat) : claimBytes numberOfBytes ≤ nxkNv2aInstanceBytes := by
  unfold claimBytes
  simp only
  split <;> omega

/-- A claim starts inside the instance window. -/
theorem claimLow_bounds {bytes : Nat} (h : bytes ≤ nxkNv2aInstanceBytes) :
    0x3FE0 ≤ claimLow bytes ∧ claimLow bytes ≤ claimTop := by
  have htop : claimTop = 0x3FF0 := rfl
  have hdef : claimLow bytes = claimTop - bytes / 2 ^ 12 := by
    rw [← Nat.shiftRight_eq_div_pow]
    rfl
  have hmax : nxkNv2aInstanceBytes = 0x10000 := rfl
  omega

namespace Tracked

variable {s : System} {t : Nat}

theorem call (h : Tracked s) (r : Request) : Tracked (s.call t r) := by
  unfold System.call
  cases s.pcs t with
  | idle =>
    cases hw : r.window with
    | none => exact h
    | some w => exact h.setPc (Request.window_ok hw) (fun _ => id)
  | _ => exact h

/-- A failed take, as seen from the held pages. -/
theorem takeFailed (h : Tracked s) {w : Window} {hint base : Nat} {supply : Supply}
    {moves : List Supply.Move}
    (htake : takeContiguous s.tracking.supply w = (supply, base, moves))
    (hhint : hint < s.tracking.slots) :
    Tracked { s with tracking := { s.tracking with hint := hint, supply := supply } } := by
  obtain ⟨hinv, -, hkeep, -⟩ := takeContiguous_spec h.supply htake
  refine h.setTracking hinv ?_ ?_ (Nat.le_refl _)
  · exact (h.table.setHint hhint).setSupply supply
  · intro k p hk
    exact hkeep p (h.held.pinned hk)

theorem take (h : Tracked s) : Tracked (s.take t) := by
  rcases System.take_cases h.table.hint with hsame | ⟨w, hpc, hcases⟩
  · rw [hsame]
    exact h
  have hw := h.pc_ok hpc
  rcases hcases with ⟨hgrow, hfull⟩ | hfound
  · rw [hgrow]
    refine h.setPc ⟨hw, h.table.full ?_ hfull⟩ (fun _ => id)
    intro a ha
    exact (h.live_lt ha (h.base_has ha)).2
  · obtain ⟨slot, hint, supply, base, moves, hslot, hhint, -, htake, hres⟩ := hfound
    rcases hres with ⟨-, hfail⟩ | ⟨h0, hdone⟩
    · rw [hfail]
      exact (h.takeFailed htake hhint).setPc ⟨hw, hslot⟩ (fun _ => id)
    · rw [hdone]
      obtain ⟨-, -, -, hrun⟩ := takeContiguous_spec h.supply htake
      exact h.finish hw ((h.table.setHint hhint).setSupply supply) rfl (hrun h0).1 (hrun h0).2

theorem growFails (h : Tracked s) : Tracked (s.growFails t) := by
  unfold System.growFails
  cases s.pcs t with
  | grow w oldSlots => exact h.setPc trivial (fun _ => id)
  | _ => exact h

theorem growSwaps (h : Tracked s) : Tracked (s.growSwaps t) := by
  unfold System.growSwaps
  cases hpc : s.pcs t with
  | grow w oldSlots =>
    have hok := h.pc_ok hpc
    have hsupply : (s.tracking.nxpContigGrow oldSlots).supply = s.tracking.supply := by
      unfold Tracking.nxpContigGrow
      split <;> rfl
    have hslots : s.tracking.slots ≤ (s.tracking.nxpContigGrow oldSlots).slots := by
      have hle := hok.2
      unfold Tracking.nxpContigGrow
      split
      · show s.tracking.slots ≤ oldSlots * 2 % 2 ^ 32
        omega
      · exact Nat.le_refl _
    have hnew : Tracked { s with tracking := s.tracking.nxpContigGrow oldSlots } := by
      refine h.setTracking ?_ (h.table.grow hok.2) ?_ hslots
      · rw [hsupply]
        exact h.supply
      · intro k p hk
        rw [hsupply]
        exact h.held.pinned hk
    exact hnew.setPc hok.1 (fun _ => id)
  | _ => exact h

theorem reclaimed (h : Tracked s) (found : Bool) : Tracked (s.reclaimed t found) := by
  unfold System.reclaimed
  cases hpc : s.pcs t with
  | reclaim w slot =>
    have hok := h.pc_ok hpc
    cases found with
    | true => exact h.setPc hok (fun _ => id)
    | false => exact h.setPc trivial (fun _ => id)
  | _ => exact h

theorem retry (h : Tracked s) : Tracked (s.retry t) := by
  rcases System.retry_cases (t := t) with hsame | hcases
  · rw [hsame]
    exact h
  obtain ⟨w, slot, supply, base, moves, hpc, htake, hres⟩ := hcases
  have hok := h.pc_ok hpc
  rcases hres with ⟨-, hfail⟩ | ⟨h0, hdone⟩
  · rw [hfail]
    exact (h.takeFailed htake h.table.hint).setPc trivial (fun _ => id)
  · rw [hdone]
    obtain ⟨-, -, -, hrun⟩ := takeContiguous_spec h.supply htake
    exact h.finish hok.1 (h.table.setSupply supply) rfl (hrun h0).1 (hrun h0).2

/-- The pages of the freed allocation pass to the thread that frees it. -/
theorem free (h : Tracked s) (va : Nat) : Tracked (s.free t va) := by
  rcases System.free_cases h.table h.pages va with hsame | hblank | hfound
  · rw [hsame]
    exact h
  · obtain ⟨i, hi, rfl, hres⟩ := hblank
    have hlive : (s.live.filter fun a => a.kseg0Alias ≠ 0) = s.live := by
      rw [List.filter_eq_self]
      intro a _
      exact decide_eq_true a.kseg0Alias_ne_zero
    have htable : update s.tracking.table i Entry.blank = s.tracking.table := by
      rw [← hi]
      exact update_eq_self i _
    rw [hres, hlive, htable]
    exact h.setPc trivial (fun _ => id)
  · obtain ⟨i, a, hi, ha, hia, rfl, hres⟩ := hfound
    rw [hres]
    refine ⟨h.supply, h.table.clear hi hia, ?_, ?_, ?_, h.taken, h.claim⟩
    · intro b hb
      exact h.pages b (List.mem_filter.1 hb).1
    · refine h.held.transfer (.live a) (.thread t) ?_
      intro k p hk
      cases k with
      | claim => exact .inl ⟨fun e => by contradiction, hk⟩
      | live b =>
        obtain ⟨hb, hp⟩ := hk
        obtain ⟨hb, hne⟩ := List.mem_filter.1 hb
        refine .inl ⟨?_, hb, hp⟩
        intro e
        rw [Holder.live.inj e] at hne
        exact (of_decide_eq_true hne) rfl
      | thread u =>
        rcases has_update hk with ⟨rfl, hu⟩ | ⟨-, hu⟩
        · exact .inr ⟨rfl, ha, Pc.has_returning.1 hu⟩
        · exact .inl ⟨fun e => by contradiction, hu⟩
    · exact (forall_update_iff s.pcs fun _ pc => pc.Ok _).2
        ⟨⟨a.base, a.pages, rfl, rfl, h.pages a ha⟩, fun u _ => h.pcs u⟩

/-- The second lock hold of a free returns exactly the run the thread carries. -/
theorem giveBack_returned (h : Tracked s) {base pages : Nat} (hpos : 0 < pages)
    (hpc : s.pcs t = .returning (base * pageSize) ((base + pages) * pageSize)) :
    ∃ supply, Returned s.tracking.supply supply base pages ∧
      (∀ p, inRun base pages p = true → s.tracking.supply.free p = false) ∧
      s.giveBack t = { s with tracking.supply := supply }.setPc t .idle := by
  have hpin : ∀ p, inRun base pages p = true → s.tracking.supply.Pinned p := by
    intro p hp
    refine h.held.pinned (i := .thread t) ?_
    show (s.pcs t).Has p
    rw [hpc, Pc.has_returning]
    exact inRun_iff.1 hp
  have hlast := hpin (base + pages - 1) (inRun_iff.2 (by omega))
  have hword := h.supply.highest_lt
  have hle := hlast.2.1
  have hcount : ((base + pages) * pageSize - base * pageSize + pageSize - 1) / pageSize =
      pages := by
    rw [show pageSize = 4096 from rfl]
    omega
  refine ⟨claimShrink s.tracking.supply base pages, claimShrink_spec h.supply base pages hpin,
    fun p hp => (hpin p hp).not_free, ?_⟩
  unfold System.giveBack
  simp only [hpc, hcount]
  rw [returnPages_eq (by omega)]

theorem giveBack (h : Tracked s) : Tracked (s.giveBack t) := by
  cases hpc : s.pcs t with
  | returning pa paEnd =>
    have hok := h.pc_ok hpc
    obtain ⟨base, pages, rfl, rfl, hpos⟩ := hok
    obtain ⟨supply, hret, -, hres⟩ := h.giveBack_returned hpos hpc
    have hmine : ∀ p, s.Holds (.thread t) p ↔ inRun base pages p = true := by
      intro p
      show (s.pcs t).Has p ↔ _
      rw [hpc, Pc.has_returning, inRun_iff]
    rw [hres]
    refine ⟨hret.inv, h.table.setSupply supply, h.pages, ?_, ?_, h.taken, h.claim⟩
    · have hsub : ∀ k p, ({ s with tracking.supply := supply }.setPc t .idle).Holds k p →
          k ≠ .thread t ∧ s.Holds k p := by
        intro k p hk
        cases k with
        | claim | live a => exact ⟨fun e => by contradiction, hk⟩
        | thread u =>
          obtain ⟨hut, hu⟩ := (has_update hk).resolve_left And.right
          exact ⟨fun e => hut (Holder.thread.inj e), hu⟩
      refine h.held.shrink (fun k p hk => (hsub k p hk).2) ?_
      intro k p hk
      obtain ⟨hkt, hk⟩ := hsub k p hk
      refine hret.keep (h.held.pinned hk) ?_
      by_contra hin
      exact hkt (h.held.apart hk ((hmine p).2 (by simpa using hin)))
    · exact (forall_update_iff s.pcs fun _ pc => pc.Ok _).2 ⟨trivial, fun u _ => h.pcs u⟩
  | _ =>
    have hsame : s.giveBack t = s := by
      unfold System.giveBack
      rw [hpc]
    rw [hsame]
    exact h

theorem foreign (h : Tracked s) {op : Op} (hadm : Act.Admissible s (.foreign op)) :
    Tracked (Act.apply s (.foreign op)) := by
  obtain ⟨hadm, hoff⟩ := hadm
  refine h.setTracking (h.supply.step ⟨hadm, rfl⟩) (h.table.setSupply _) ?_ (Nat.le_refl _)
  intro k p hk
  exact h.supply.apply_pinned hadm (h.held.pinned hk) (fun hw => hoff k p hw hk)

/-- A covered claim that grows takes exactly the pages it adds. -/
theorem claimGrows (h : Tracked s) {n : Nat} (hn : n ≠ maxUlongPtr) (hcov : s.ClaimCovered n)
    (hlow : claimLow (claimBytes n) < claimLow s.instanceBytes) :
    Tracked (s.nxMmClaimGpuInstanceMemory n) := by
  obtain ⟨hpages, havail⟩ := hcov.resolve_left hn
  have hbounds := claimLow_bounds h.claim
  have hnew := claimLow_bounds (claimBytes_le n)
  generalize hk : claimLow s.instanceBytes - claimLow (claimBytes n) = k
  have hbase : claimLow s.instanceBytes - k = claimLow (claimBytes n) := by omega
  have hret : s.claimReturns n = [] := by
    unfold System.claimReturns
    simp only [if_neg hn]
    rw [Nat.sub_eq_zero_of_le (by omega)]
    rfl
  obtain ⟨supply, took, hgrow, hrun, htook⟩ := claimGrow_spec h.supply
    (claimLow s.instanceBytes) k (by omega)
    (by have := (hpages (claimLow s.instanceBytes - 1) (by omega) (by omega)).1; omega)
    (by
      intro q hq
      rw [hbase, inRun_iff] at hq
      exact (hpages q hq.1 (by omega)).2)
    (by omega)
  rw [hbase] at hrun htook
  have hres : s.nxMmClaimGpuInstanceMemory n =
      { s with
        tracking.supply := supply
        instanceBytes := claimBytes n
        taken := took ++ s.taken } := by
    unfold System.nxMmClaimGpuInstanceMemory
    simp only [if_neg hn, hk, hgrow, hret]
    rw [Nat.sub_eq_zero_of_le (Nat.le_of_lt hlow), claimShrink]
    simp
  rw [hres]
  refine ⟨hrun.inv, h.table.setSupply supply, h.pages, ?_, h.pcs, ?_, claimBytes_le n⟩
  · refine h.held.grant .claim (fun p => inRun (claimLow (claimBytes n)) k p = true) hrun.keep
      hrun.fresh hrun.run ?_
    intro j p hj
    cases j with
    | live a => exact .inl hj
    | thread u => exact .inl hj
    | claim =>
      rcases List.mem_append.1 hj with hj | hj
      · exact .inr ⟨rfl, (htook p).1 hj⟩
      · exact .inl hj
  · intro p
    rw [List.mem_append, htook, h.taken, inRun_iff]
    show _ ↔ claimLow (claimBytes n) ≤ p ∧ p < claimTop
    omega

/-- A claim that does not grow returns the pages it gives up, all of which
claims had taken. -/
theorem claimShrinks (h : Tracked s) {n : Nat} (hn : n ≠ maxUlongPtr)
    (hlow : claimLow s.instanceBytes ≤ claimLow (claimBytes n)) :
    Returned s.tracking.supply (s.nxMmClaimGpuInstanceMemory n).tracking.supply
        (claimLow s.instanceBytes) (claimLow (claimBytes n) - claimLow s.instanceBytes) ∧
      Tracked (s.nxMmClaimGpuInstanceMemory n) := by
  have hnew := claimLow_bounds (claimBytes_le n)
  obtain ⟨k, hk⟩ : ∃ k, claimLow (claimBytes n) - claimLow s.instanceBytes = k := ⟨_, rfl⟩
  have hret : ∀ p, p ∈ s.claimReturns n ↔ inRun (claimLow s.instanceBytes) k p = true := by
    intro p
    unfold System.claimReturns
    simp only [if_neg hn]
    rw [hk, List.mem_range'_1, inRun_iff]
  have hspec := claimShrink_spec h.supply (claimLow s.instanceBytes) k (by
    intro q hq
    rw [inRun_iff] at hq
    refine h.held.pinned (i := .claim) ?_
    exact (h.taken q).2 (by omega))
  have hres : s.nxMmClaimGpuInstanceMemory n =
      { s with
        tracking.supply := claimShrink s.tracking.supply (claimLow s.instanceBytes) k
        instanceBytes := claimBytes n
        taken := s.taken.filter fun p => p ∉ s.claimReturns n } := by
    unfold System.nxMmClaimGpuInstanceMemory
    simp only [if_neg hn, Nat.sub_eq_zero_of_le hlow, claimGrow, List.nil_append, hk]
  have hsub : ∀ j p, ({ s with
        tracking.supply := claimShrink s.tracking.supply (claimLow s.instanceBytes) k
        instanceBytes := claimBytes n
        taken := s.taken.filter fun p => p ∉ s.claimReturns n } : System).Holds j p →
      s.Holds j p ∧ (j = .claim → inRun (claimLow s.instanceBytes) k p = false) := by
    intro j p hj
    cases j with
    | live a | thread u => exact ⟨hj, fun e => by contradiction⟩
    | claim =>
      obtain ⟨hmem, hnot⟩ := List.mem_filter.1 hj
      refine ⟨hmem, fun _ => ?_⟩
      have hnot := of_decide_eq_true hnot
      rw [hret] at hnot
      simpa using hnot
  refine ⟨?_, ?_⟩
  · rw [hres, hk]
    exact hspec
  rw [hres]
  refine ⟨hspec.inv, h.table.setSupply _, h.pages, ?_, h.pcs, ?_, claimBytes_le n⟩
  · refine h.held.shrink (fun j p hj => (hsub j p hj).1) ?_
    intro j p hj
    obtain ⟨hold, hout⟩ := hsub j p hj
    refine hspec.keep (h.held.pinned hold) ?_
    -- a returned page was held by the claim, so by nobody else
    by_contra hin
    have hin : inRun (claimLow s.instanceBytes) k p = true := by simpa using hin
    have hclaim : s.Holds .claim p := by
      rw [inRun_iff] at hin
      exact (h.taken p).2 (by omega)
    rw [hout (h.held.apart hold hclaim)] at hin
    contradiction
  · intro p
    rw [List.mem_filter, decide_eq_true_eq, hret, h.taken, inRun_iff]
    show _ ↔ claimLow (claimBytes n) ≤ p ∧ p < claimTop
    omega

theorem claims (h : Tracked s) {n : Nat} (hcov : s.ClaimCovered n) :
    Tracked (s.nxMmClaimGpuInstanceMemory n) := by
  by_cases hn : n = maxUlongPtr
  · unfold System.nxMmClaimGpuInstanceMemory
    rw [if_pos hn]
    exact h
  · by_cases hlow : claimLow (claimBytes n) < claimLow s.instanceBytes
    · exact h.claimGrows hn hcov hlow
    · exact (h.claimShrinks hn (by omega)).2

/-- Every step whose claims are covered keeps the invariant. -/
theorem step (h : Tracked s) {a : Act} (hadm : a.Admissible s) (hcov : a.ClaimCovered s) :
    Tracked (a.apply s) := by
  cases a with
  | call t r => exact h.call r
  | take t => exact h.take
  | growFails t => exact h.growFails
  | growSwaps t => exact h.growSwaps
  | reclaimed t found => exact h.reclaimed found
  | retry t => exact h.retry
  | free t va => exact h.free va
  | giveBack t => exact h.giveBack
  | claim n => exact h.claims hcov
  | foreign op => exact h.foreign hadm

/-- The invariant holds in every history whose claims are covered. -/
theorem history {P : System → Act → Prop} (hP : ∀ s a, P s a → a.ClaimCovered s)
    (h : History P s) : Tracked s := by
  refine Reachable.invariant ?_ ?_ h
  · intro u hb
    exact boot hb
  · rintro u a _ hu ⟨hadm, hp, rfl⟩
    exact hu.step hadm (hP u a hp)

end Tracked

end Roswell.Ports.Contig
