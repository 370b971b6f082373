import Roswell.Ports.PageSupplyFloor

/-!
# Where relocated pages go

`NxkPageSupplyTakeRunRelocate` asks `NxkPageSupplyTakeAnyOutside` for one
destination per owned page of the run.  The frames that search can reach are
the free ones outside the run at or above the spill hint, and every
destination taken removes one of them.  So whether the take loop gets through
a run is decided beforehand, by counting the owned pages of the run against
the destinations.

The pre-flight count of the source compares other numbers: the generic pages
minus the free pages of the run, in unsigned arithmetic.  The free pages of a
run may lie below the generic floor, and then the difference wraps.
-/

namespace Roswell.Ports.PageSupply

open Verified.Word Verified.Runs Function Supply

namespace Supply

/-- The pages in use in `[lo, hi)`. -/
def inUseIn (s : Supply) (lo hi : Nat) : Finset Nat :=
  (Finset.Ico lo hi).filter (fun p => s.free p = false)

theorem mem_inUseIn {s : Supply} {lo hi p : Nat} :
    p ∈ s.inUseIn lo hi ↔ (lo ≤ p ∧ p < hi) ∧ s.free p = false := by
  rw [inUseIn, Finset.mem_filter, Finset.mem_Ico]

/-- A free first page does not count. -/
theorem inUseIn_free {s t : Supply} {lo hi : Nat} (htook : Took s t lo) :
    s.inUseIn lo hi = t.inUseIn (lo + 1) hi := by
  ext p
  rw [mem_inUseIn, mem_inUseIn, htook.free]
  by_cases hp : p = lo
  · subst hp
    rw [htook.was_free]
    simp
  · have hin : (lo + 1 ≤ p ∧ p < hi) ↔ (lo ≤ p ∧ p < hi) := by omega
    rw [hin, decide_eq_true hp, Bool.true_and]

/-- A first page in use counts once. -/
theorem inUseIn_owned {s t : Supply} {lo hi : Nat} (hlt : lo < hi) (hf : s.free lo = false)
    (ht : ∀ p, lo < p → p < hi → t.free p = s.free p) :
    (s.inUseIn lo hi).card = (t.inUseIn (lo + 1) hi).card + 1 := by
  have hset : s.inUseIn lo hi = insert lo (t.inUseIn (lo + 1) hi) := by
    ext p
    rw [Finset.mem_insert, mem_inUseIn, mem_inUseIn]
    by_cases hp : p = lo
    · subst hp
      simp [hlt, hf]
    · constructor
      · rintro ⟨⟨h1, h2⟩, h3⟩
        exact .inr ⟨⟨by omega, h2⟩, by rw [ht p (by omega) h2]; exact h3⟩
      · intro h
        obtain ⟨⟨h1, h2⟩, h3⟩ := h.resolve_left hp
        exact ⟨⟨by omega, h2⟩, by rw [← ht p h1 h2]; exact h3⟩
  have hnot : lo ∉ t.inUseIn (lo + 1) hi := fun hm => by
    have := (mem_inUseIn.1 hm).1.1
    omega
  rw [hset, Finset.card_insert_of_notMem hnot]

end Supply

namespace Inv

variable {s : Supply} {low high dest page : Nat}

/-- Taking a frame inside the window leaves the destinations alone. -/
theorem destinations_inside (h : Inv s) (hf : s.free page = true)
    (hin : inWindow low high page = true) :
    (s.nxpUnlink page).destinations low high = s.destinations low high := by
  have htook := h.took hf
  ext p
  rw [htook.inv.mem_destinations, h.mem_destinations, htook.free, nxpUnlink_spillHint]
  by_cases hp : p = page
  · rw [hp, hin]
    simp
  · simp [hp]

/-- Handing an owner entry to a destination uses it up. -/
theorem destinations_handOver (h : Inv s) (hdest : s.free dest = true)
    (hf : s.free page = false) :
    (s.handOver dest page).destinations low high = (s.destinations low high).erase dest := by
  have hint : (s.handOver dest page).spillHint = s.spillHint := nxpUnlink_spillHint
  ext p
  rw [Finset.mem_erase, (h.handOver hdest hf).mem_destinations, h.mem_destinations,
    h.handOver_free hdest hf, Bool.and_eq_true, decide_eq_true_eq, and_assoc, hint]

/-! ## The count that decides the take loop -/

/-- A page of the window that has handed its entry over is one page in use
less. -/
theorem inUseIn_handOver (h : Inv s) {base run : Nat}
    (hdest : dest ∈ s.destinations base (base + run - 1)) (hf : s.free page = false)
    (hle : base ≤ page) (hlt : page < base + run) :
    (s.inUseIn page (base + run)).card =
      ((s.handOver dest page).inUseIn (page + 1) (base + run)).card + 1 := by
  obtain ⟨hwas, -, hout⟩ := h.mem_destinations.1 hdest
  refine inUseIn_owned hlt hf ?_
  intro p h1 h2
  have hpd : p ≠ dest := by
    intro e
    simp [inWindow] at hout
    omega
  rw [h.handOver_free hwas hf]
  simp [hpd]

/-- The take loop gets through the last `n` pages of the run exactly when its
pages in use do not outnumber the destinations. -/
theorem relocPages_done (h : Inv s) (base : Nat) {run n : Nat} (hn : n ≤ run) :
    (relocPages base run n s).2.1 = true ↔
      (s.inUseIn (base + (run - n)) (base + run)).card ≤
        (s.destinations base (base + run - 1)).card := by
  induction n generalizing s with
  | zero =>
    have hnone : s.inUseIn (base + run) (base + run) = ∅ := by simp [inUseIn]
    rw [Nat.sub_zero, hnone]
    simp [relocPages]
  | succ n ih =>
    have hnext : base + (run - n) = base + (run - (n + 1)) + 1 := by omega
    obtain ⟨page, hpage⟩ : ∃ page, base + (run - (n + 1)) = page := ⟨_, rfl⟩
    rw [hpage] at hnext ⊢
    have hin : inWindow base (base + run - 1) page = true := by
      simp [inWindow]
      omega
    rcases h.relocPages_succ hpage with ⟨hf, hstep⟩ | ⟨hf, ⟨hempty, -, hstep⟩ |
      ⟨dest, hdest, -, hstep⟩⟩
    · rw [hstep, inUseIn_free (h.took hf), ← h.destinations_inside hf hin, ← hnext]
      exact ih (h.took hf).inv (by omega)
    · have hone := inUseIn_owned (t := s) (show page < base + run by omega) hf
        (fun _ _ _ => rfl)
      rw [hstep, hempty, hone]
      simp
    · have hwas := (h.mem_destinations.1 hdest).1
      have hcount := h.inUseIn_handOver hdest hf (by omega) (by omega)
      have hpos := Finset.card_pos.2 ⟨dest, hdest⟩
      have hafter := ih (h.handOver hwas hf) (by omega)
      rw [hnext, h.destinations_handOver hwas hf, Finset.card_erase_of_mem hdest] at hafter
      rw [hstep, hafter, hcount]
      omega

end Inv

/-! ## Failing cleanly -/

namespace Supply

/-- The branch of `NxkPageSupplyTakeRunRelocate` that finds no destination for a
page of the run it chose. -/
def Starved (s : Supply) (runPages lowPfn highPfn alignPages : Nat) : Prop :=
  ∃ r base, s.runRequest runPages lowPfn highPfn alignPages = some r ∧
    s.relocScan r (r.firstBase + 1) r.firstBase = some base ∧
    (relocPages base r.runPages r.runPages s).2.1 = false

/-- A result of `0` leaves the supply as it was and has copied no page and
rewritten no page-table entry, and the branch without a destination is not
reached. -/
def FailsCleanly (s : Supply) (runPages lowPfn highPfn alignPages : Nat) : Prop :=
  ((s.nxkPageSupplyTakeRunRelocate runPages lowPfn highPfn alignPages).2.1 = 0 →
      s.nxkPageSupplyTakeRunRelocate runPages lowPfn highPfn alignPages = (s, 0, [])) ∧
    ¬s.Starved runPages lowPfn highPfn alignPages

/-- The run that passes the pre-flight count, the highest one for power-of-two
alignments, has no more pages in use than there are destinations for them. -/
def Housed (s : Supply) (runPages lowPfn highPfn alignPages : Nat) : Prop :=
  ∀ b, Highest (s.RelocFits runPages lowPfn highPfn alignPages) alignPages b →
    (s.inUseIn b (b + runPages)).card ≤ (s.destinations b (b + runPages - 1)).card

end Supply

namespace Inv

variable {s : Supply}

/-- A call is starved exactly when the run it works on has too few
destinations; a call that is not starved fails before it takes anything. -/
theorem starved_iff (h : Inv s) (runPages lowPfn highPfn alignPages : Nat) :
    (¬s.Starved runPages lowPfn highPfn alignPages ↔
        s.FailsCleanly runPages lowPfn highPfn alignPages) ∧
      (s.Housed runPages lowPfn highPfn alignPages →
        ¬s.Starved runPages lowPfn highPfn alignPages) ∧
      (PowTwo alignPages → ¬s.Starved runPages lowPfn highPfn alignPages →
        s.Housed runPages lowPfn highPfn alignPages) := by
  cases hr : s.runRequest runPages lowPfn highPfn alignPages with
  | none =>
    have hnot : ¬s.Starved runPages lowPfn highPfn alignPages := by simp [Starved, hr]
    refine ⟨⟨fun _ => ⟨fun _ => ?_, hnot⟩, fun _ => hnot⟩, fun _ => hnot, ?_⟩
    · rw [nxkPageSupplyTakeRunRelocate, hr]
    · intro _ _ b hb
      exact absurd hb.1.2.1 (runRequest_none hb.1.1 hr b)
  | some r =>
    have hnorm := runRequest_spec hr
    rcases relocScan_search h hr with ⟨hnone, hno⟩ | ⟨base, hbase, hhigh⟩
    · have hnot : ¬s.Starved runPages lowPfn highPfn alignPages := by simp [Starved, hr, hnone]
      refine ⟨⟨fun _ => ⟨fun _ => ?_, hnot⟩, fun _ => hnot⟩, fun _ => hnot, ?_⟩
      · simp only [nxkPageSupplyTakeRunRelocate, hr, hnone]
      · intro hp _ b hb
        exact absurd hb.1 (hno hp b)
    · have hpos : base ≠ 0 := Nat.pos_iff_ne_zero.1 hhigh.1.2.1.1
      have hstarved : s.Starved runPages lowPfn highPfn alignPages ↔
          (relocPages base runPages runPages s).2.1 = false := by
        simp [Starved, hr, hbase, hnorm.run]
      have hdone := h.relocPages_done base (Nat.le_refl runPages)
      rw [Nat.sub_self, Nat.add_zero] at hdone
      rw [hstarved, Bool.not_eq_false, hdone]
      refine ⟨⟨?_, fun hc => ?_⟩, fun hh => hh base hhigh, ?_⟩
      · intro hle
        refine ⟨fun h0 => ?_, fun hst => ?_⟩
        · simp only [nxkPageSupplyTakeRunRelocate, hr, hbase, hnorm.run,
            if_pos (hdone.2 hle)] at h0
          exact absurd h0 hpos
        · rw [hstarved, Bool.eq_false_iff] at hst
          exact hst (hdone.2 hle)
      · by_contra hgt
        exact hc.2 (hstarved.2 (by rw [Bool.eq_false_iff]; exact fun hd => hgt (hdone.1 hd)))
      · intro hp hle b hb
        have heq : b = base := Nat.le_antisymm (hhigh.2 hp b hb.1) (hb.2 hp base hhigh.1)
        rw [heq]
        exact hle

end Inv

/-- In every reachable state a relocating run allocation fails cleanly when the
run it would take has a destination for each of its pages in use; with a
power-of-two alignment this is also necessary. -/
theorem relocation_fails_cleanly {highestPfn : Nat} (hfl : nxpGenericFloorPfn ≤ highestPfn)
    (hmax : highestPfn ≤ nxpPfnMask) {retailShaped : Bool} {s : Supply}
    (h : Reached highestPfn retailShaped s) (runPages lowPfn highPfn alignPages : Nat) :
    (s.Housed runPages lowPfn highPfn alignPages →
        s.FailsCleanly runPages lowPfn highPfn alignPages) ∧
      (PowTwo alignPages → s.FailsCleanly runPages lowPfn highPfn alignPages →
        s.Housed runPages lowPfn highPfn alignPages) := by
  obtain ⟨hclean, hyes, hno⟩ :=
    (Inv.reached hfl hmax h).starved_iff runPages lowPfn highPfn alignPages
  exact ⟨fun hh => hclean.1 (hyes hh), fun hp hc => hno hp (hclean.2 hc)⟩

/-- A supply whose only free page is the last one below the floor, next to a
page that has an owner. -/
def edgeSupply : Supply :=
  [Op.giveBack 15, .setOwner 16 (ownerPteVa 0x400)].foldl Op.apply
    (nxkPageSupplyInitialize 0xFF true)

theorem edgeSupply_reached : Reached 0xFF true edgeSupply :=
  Reached.ops (.start rfl) _ (by decide)

/-- A run over both pages passes the pre-flight count, which wraps: no generic
page minus one free page of the run.  Page 15 is taken off its list, no
destination is found for page 16, and the call fails with page 15 lost. -/
theorem edgeSupply_loses_page :
    Reached 0xFF true edgeSupply ∧
      (edgeSupply.nxkPageSupplyTakeRunRelocate 2 15 16 1).2.1 = 0 ∧
      edgeSupply.free 15 = true ∧
      (edgeSupply.nxkPageSupplyTakeRunRelocate 2 15 16 1).1.free 15 = false ∧
      edgeSupply.Starved 2 15 16 1 ∧ ¬edgeSupply.FailsCleanly 2 15 16 1 := by
  have hstarved : edgeSupply.Starved 2 15 16 1 :=
    ⟨⟨2, 15, 1, 15⟩, 15, rfl, by decide +kernel, by decide +kernel⟩
  exact ⟨edgeSupply_reached, by decide +kernel, by decide, by decide +kernel, hstarved,
    fun hc => hc.2 hstarved⟩

/-- Once the count has two generic pages to offer, the owned page moves to one
of them. -/
def roomySupply : Supply := [Op.giveBack 0x20, .giveBack 0x21].foldl Op.apply edgeSupply

theorem relocation_fails_cleanly_roomySupply :
    roomySupply.Housed 2 15 16 1 ∧ roomySupply.FailsCleanly 2 15 16 1 ∧
      (roomySupply.nxkPageSupplyTakeRunRelocate 2 15 16 1).2 = (15, [⟨16, 0x20, 0x400⟩]) := by
  have hreach : Reached 0xFF true roomySupply := edgeSupply_reached.ops _ (by decide)
  have hhoused : roomySupply.Housed 2 15 16 1 := by
    rintro b ⟨⟨-, ⟨-, hlow, hhigh, -⟩, -⟩, -⟩
    have hb : b = 15 := by omega
    subst hb
    decide +kernel
  exact ⟨hhoused, (relocation_fails_cleanly (by decide) (by decide) hreach 2 15 16 1).1 hhoused,
    by decide +kernel⟩

end Roswell.Ports.PageSupply
