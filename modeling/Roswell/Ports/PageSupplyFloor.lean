import Roswell.Ports.PageSupplyRuns

/-!
# The pin-only pages below the generic floor

The pages below 64 KiB are meant for explicit pins: only a window entirely
below the floor may take them.  `NxkPageSupplyTakeAny` keeps to that.  The
upward scan of `NxkPageSupplyTakeAnyOutside` starts at the spill hint, which a
return can lower below the floor, and the run allocators have no floor test at
all.

`FloorGuarded` is the condition on the state before an operation under which
it hands out no pin-only page.  It is sufficient for every operation, and for
power-of-two alignments, where the run searches return the highest candidate,
it is also necessary.  The last section states that search on its own.
-/

namespace Roswell.Ports.PageSupply

open Verified.Word Verified.ScanDown Verified.Runs Supply Op

/-! ## Which pages an operation hands out -/

namespace Op

/-- The allocation operations the floor is about.  A run window that ends below
the floor is an explicit pin. -/
def Generic : Op → Prop
  | takeAny => True
  | takeAnyOutside _ _ => True
  | takeRun _ _ highPfn _ => nxpGenericFloorPfn ≤ highPfn
  | takeRunRelocate _ _ highPfn _ => nxpGenericFloorPfn ≤ highPfn
  | _ => False

/-- The pages of a run, none for the failure result `0`. -/
def runPagesFrom (base runPages : Nat) : List Nat :=
  if base = 0 then [] else List.range' base runPages

/-- The pages handed out, as the result or as a relocation destination. -/
def handedOut (s : Supply) : Op → List Nat
  | takeAny => runPagesFrom s.nxkPageSupplyTakeAny.2 1
  | takeAnyOutside low high => runPagesFrom (s.nxkPageSupplyTakeAnyOutside low high).2 1
  | takeRun runPages lowPfn highPfn alignPages =>
    runPagesFrom (s.nxkPageSupplyTakeRun runPages lowPfn highPfn alignPages).2 runPages
  | takeRunRelocate runPages lowPfn highPfn alignPages =>
    let out := s.nxkPageSupplyTakeRunRelocate runPages lowPfn highPfn alignPages
    runPagesFrom out.2.1 runPages ++ out.2.2.map Supply.Move.dest
  | _ => []

/-- No page handed out lies below the floor. -/
def KeepsFloor (s : Supply) (op : Op) : Prop :=
  ∀ p ∈ op.handedOut s, nxpGenericFloorPfn ≤ p

end Op

theorem Op.mem_runPagesFrom {base runPages p : Nat} :
    p ∈ runPagesFrom base runPages ↔ base ≠ 0 ∧ inRun base runPages p = true := by
  unfold runPagesFrom
  by_cases h0 : base = 0
  · simp [h0]
  · rw [if_neg h0, List.mem_range'_1, inRun_iff]
    simp [h0]

/-- A run keeps the floor when its base does. -/
theorem Op.runPagesFrom_floor {base runPages : Nat} (hpos : base ≠ 0 → 0 < runPages) :
    (∀ p ∈ runPagesFrom base runPages, nxpGenericFloorPfn ≤ p) ↔
      (base ≠ 0 → nxpGenericFloorPfn ≤ base) := by
  constructor
  · intro h h0
    exact h base (mem_runPagesFrom.2 ⟨h0, inRun_iff.2 (by omega)⟩)
  · intro h p hp
    obtain ⟨h0, hin⟩ := mem_runPagesFrom.1 hp
    have := inRun_iff.1 hin
    omega

/-! ## The condition -/

namespace Supply

/-- `NxkPageSupplyTakeAnyOutside` finds the head of the kernel list usable, or
its scan meets no free page below the floor. -/
def OutsideGuarded (s : Supply) (low high : Nat) : Prop :=
  (s.freeHeadKernel ≠ 0 ∧ inWindow low high s.freeHeadKernel = false) ∨
    ∀ p, s.spillHint ≤ p → p < nxpGenericFloorPfn → s.free p = true →
      inWindow low high p = true

/-- A candidate below the floor has a candidate at or above it, which the
search from the top prefers. -/
def BaseGuarded (fits : Nat → Prop) (alignPages : Nat) : Prop :=
  ∀ b, fits b → b < nxpGenericFloorPfn →
    PowTwo alignPages ∧ ∃ b', fits b' ∧ nxpGenericFloorPfn ≤ b'

/-- Every destination the take loop asks for, over the last `n` pages of the
run, is asked for in a guarded state. -/
def DestsGuarded (base runPages : Nat) : Nat → Supply → Prop
  | 0, _ => True
  | n + 1, s =>
    let page := base + (runPages - (n + 1))
    if s.free page then DestsGuarded base runPages n (s.nxpUnlink page)
    else
      s.OutsideGuarded base (base + runPages - 1) ∧
        ((s.nxkPageSupplyTakeAnyOutside base (base + runPages - 1)).2 ≠ 0 →
          DestsGuarded base runPages n
            (((s.nxkPageSupplyTakeAnyOutside base (base + runPages - 1)).1.setEntry
              (s.nxkPageSupplyTakeAnyOutside base (base + runPages - 1)).2
              (s.links page)).setEntry page 0))

end Supply

/-- The condition on an operation and the state before it. -/
def Op.FloorGuarded (s : Supply) : Op → Prop
  | .takeAnyOutside low high => s.OutsideGuarded low high
  | .takeRun runPages lowPfn highPfn alignPages =>
    Supply.BaseGuarded (s.RunFits runPages lowPfn highPfn alignPages) alignPages
  | .takeRunRelocate runPages lowPfn highPfn alignPages =>
    Supply.BaseGuarded (s.RelocFits runPages lowPfn highPfn alignPages) alignPages ∧
      ∀ b, s.RelocFits runPages lowPfn highPfn alignPages b →
        (PowTwo alignPages →
          ∀ b', s.RelocFits runPages lowPfn highPfn alignPages b' → b' ≤ b) →
        Supply.DestsGuarded b runPages runPages s
  | _ => True

/-- The alignment of a run operation is one the mask is meant for. -/
def Op.PowTwoAlign : Op → Prop
  | .takeRun _ _ _ alignPages => PowTwo alignPages
  | .takeRunRelocate _ _ _ alignPages => PowTwo alignPages
  | _ => True

/-! ## Destinations -/

namespace Inv

variable {s : Supply}

/-- The exact condition for one destination. -/
theorem takeAnyOutside_floor (h : Inv s) (low high : Nat) :
    ((s.nxkPageSupplyTakeAnyOutside low high).2 ≠ 0 →
        nxpGenericFloorPfn ≤ (s.nxkPageSupplyTakeAnyOutside low high).2) ↔
      s.OutsideGuarded low high := by
  rcases h.takeAnyOutside_spec low high with ⟨hempty, htake⟩ | ⟨page, hpage, htake, hfirst⟩
  · rw [htake]
    refine iff_of_true (absurd rfl) (.inr fun p hp _ hf => ?_)
    by_contra hout
    have hmem := h.mem_destinations.2 ⟨hf, hp, by simpa using hout⟩
    rw [hempty] at hmem
    exact absurd hmem (Finset.notMem_empty p)
  rw [htake]
  obtain ⟨hf, hge, hw⟩ := h.mem_destinations.1 hpage
  split_ifs at hfirst with hk
  · rw [hfirst]
    exact iff_of_true (fun _ => (h.kernelHead_free hk.1).2) (.inl hk)
  constructor
  · intro hfl
    refine .inr fun p hp hpf hpfree => ?_
    by_contra hout
    have hle := hfirst p (h.mem_destinations.2 ⟨hpfree, hp, by simpa using hout⟩)
    have := hfl (h.free_pos hf)
    omega
  · intro hg _
    by_contra hlt
    rw [hg.resolve_left hk _ hge (Nat.lt_of_not_le hlt) hf] at hw
    contradiction

/-- The exact condition for the destinations of a whole take loop. -/
theorem relocPages_floor (h : Inv s) (base : Nat) {run n : Nat} (hn : n ≤ run) :
    (∀ m ∈ (relocPages base run n s).2.2, nxpGenericFloorPfn ≤ m.dest) ↔
      Supply.DestsGuarded base run n s := by
  induction n generalizing s with
  | zero => simp [relocPages, Supply.DestsGuarded]
  | succ n ih =>
    rw [Supply.DestsGuarded]
    rcases h.relocPages_succ rfl with ⟨hf, hstep⟩ | ⟨hf, ⟨-, hnone, hstep⟩ |
      ⟨dest, hdest, hs₁, hstep⟩⟩
    · rw [if_pos hf, hstep]
      exact ih (h.took hf).inv (by omega)
    · rw [if_neg (by rw [hf]; decide), hstep, ← h.takeAnyOutside_floor, hnone]
      simp
    · have hwas := (h.mem_destinations.1 hdest).1
      rw [if_neg (by rw [hf]; decide), hstep, ← h.takeAnyOutside_floor, hs₁]
      simp only [ne_eq, h.free_pos hwas, not_false_eq_true, forall_const, List.mem_cons,
        forall_eq_or_imp]
      exact and_congr_right fun _ => ih (h.handOver hwas hf) (by omega)

end Inv

/-! ## The base of a run -/

namespace Supply

variable {s : Supply} {runPages lowPfn highPfn alignPages : Nat}

/-- The guard on bases is what keeps the base of a search at the floor. -/
theorem Highest.floor {fits : Nat → Prop} {base : Nat} (h : Highest fits alignPages base)
    (hg : BaseGuarded fits alignPages) : nxpGenericFloorPfn ≤ base := by
  by_contra hlt
  obtain ⟨hp, b, hb, hbf⟩ := hg base h.1 (by omega)
  have := h.2 hp b hb
  omega

theorem Highest.guarded {fits : Nat → Prop} {base : Nat} (h : Highest fits alignPages base)
    (hp : PowTwo alignPages) (hfl : nxpGenericFloorPfn ≤ base) :
    BaseGuarded fits alignPages :=
  fun _ _ _ => ⟨hp, base, h.1, hfl⟩

end Supply

/-! ## The floor in every reachable state -/

/-- The operation returned a page or a run. -/
def Op.Succeeds (s : Supply) : Op → Prop
  | .takeRunRelocate runPages lowPfn highPfn alignPages =>
    (s.nxkPageSupplyTakeRunRelocate runPages lowPfn highPfn alignPages).2.1 ≠ 0
  | _ => True

/-- The condition is sufficient, and for power-of-two alignments necessary. -/
def Op.FloorExact (s : Supply) (op : Op) : Prop :=
  (op.FloorGuarded s → op.KeepsFloor s) ∧
    (op.PowTwoAlign → op.Succeeds s → op.KeepsFloor s → op.FloorGuarded s)

namespace Inv

variable {s : Supply}

theorem takeAny_keepsFloor (h : Inv s) : takeAny.KeepsFloor s := by
  refine (runPagesFrom_floor (fun _ => Nat.one_pos)).2 ?_
  intro h0
  rcases h.takeAny_spec with ⟨-, hnone⟩ | htook
  · rw [hnone] at h0
    exact absurd rfl h0
  · exact htook.2

theorem takeAnyOutside_keepsFloor (h : Inv s) (low high : Nat) :
    (takeAnyOutside low high).KeepsFloor s ↔ s.OutsideGuarded low high := by
  rw [← h.takeAnyOutside_floor]
  exact runPagesFrom_floor (fun _ => Nat.one_pos)

theorem takeRun_keepsFloor (h : Inv s) (runPages lowPfn highPfn alignPages : Nat) :
    (takeRun runPages lowPfn highPfn alignPages).FloorExact s := by
  simp only [FloorExact, KeepsFloor, FloorGuarded, handedOut]
  rcases takeRun_search h runPages lowPfn highPfn alignPages with
    ⟨hnone, hno⟩ | ⟨base, hbase, heq⟩
  · rw [hnone]
    refine ⟨fun _ p hp => absurd rfl (mem_runPagesFrom.1 hp).1, ?_⟩
    intro hp _ _ b hb
    exact absurd hb (hno hp b)
  · rw [heq, runPagesFrom_floor (fun _ => hbase.1.1)]
    refine ⟨fun hg _ => hbase.floor hg, ?_⟩
    intro hp _ hfl
    have h1 := hbase.1.2.1.1
    exact hbase.guarded hp (hfl (by simp only; omega))

theorem takeRunRelocate_keepsFloor (h : Inv s) (runPages lowPfn highPfn alignPages : Nat) :
    (takeRunRelocate runPages lowPfn highPfn alignPages).FloorExact s := by
  simp only [FloorExact, KeepsFloor, FloorGuarded, Succeeds, handedOut]
  rcases takeRunRelocate_search h runPages lowPfn highPfn alignPages with
    ⟨hnone, -⟩ | ⟨base, hbase, heq⟩
  · rw [hnone]
    refine ⟨?_, fun _ h0 => absurd rfl h0⟩
    simp [runPagesFrom]
  have hrun : (if (relocPages base runPages runPages s).2.1 = true then base
      else 0) ≠ 0 → 0 < runPages := fun _ => hbase.1.1
  have hdest := h.relocPages_floor base (Nat.le_refl runPages)
  rw [heq]
  simp only [List.mem_append, List.mem_map]
  constructor
  · rintro ⟨hg, hd⟩ p (hp | ⟨m, hm, rfl⟩)
    · refine (runPagesFrom_floor hrun).2 ?_ p hp
      intro h0
      by_cases hdone : (relocPages base runPages runPages s).2.1 = true
      · rw [if_pos hdone]
        exact hbase.floor hg
      · rw [if_neg hdone] at h0
        exact absurd rfl h0
    · exact hdest.2 (hd base hbase.1 hbase.2) m hm
  · intro hp h0 hkeep
    have hdone : (relocPages base runPages runPages s).2.1 = true := by
      by_contra hc
      rw [if_neg hc] at h0
      exact h0 rfl
    have hfl : nxpGenericFloorPfn ≤ base := by
      have := (runPagesFrom_floor hrun).1 (fun p hp => hkeep p (.inl hp)) h0
      rwa [if_pos hdone] at this
    refine ⟨hbase.guarded hp hfl, ?_⟩
    intro b hb hbest
    have heqb : b = base := Nat.le_antisymm (hbase.2 hp b hb) (hbest hp base hbase.1)
    rw [heqb]
    exact hdest.1 (fun m hm => hkeep m.dest (.inr ⟨m, hm, rfl⟩))

end Inv

/-- In every reachable state a generic operation whose condition holds hands out
no page below the floor; and with a power-of-two alignment an operation that
succeeds without handing one out meets the condition. -/
theorem generic_keepsFloor {highestPfn : Nat} (hfl : nxpGenericFloorPfn ≤ highestPfn)
    (hmax : highestPfn ≤ nxpPfnMask) {retailShaped : Bool} {s : Supply}
    (h : Reached highestPfn retailShaped s) {op : Op} (hgen : op.Generic) :
    (op.FloorGuarded s → op.KeepsFloor s) ∧
      (op.PowTwoAlign → op.Succeeds s → op.KeepsFloor s → op.FloorGuarded s) := by
  have hinv := Inv.reached hfl hmax h
  cases op with
  | takeAny => exact ⟨fun _ => hinv.takeAny_keepsFloor, fun _ _ _ => trivial⟩
  | takeAnyOutside low high =>
    have hiff := hinv.takeAnyOutside_keepsFloor low high
    exact ⟨hiff.2, fun _ _ => hiff.1⟩
  | takeRun => exact hinv.takeRun_keepsFloor ..
  | takeRunRelocate => exact hinv.takeRunRelocate_keepsFloor ..
  | giveBack page | takeSpecific page | setOwner page pteVa => exact hgen.elim

/-- A supply holding one pin-only page, returned at boot. -/
def lowSupply : Supply :=
  apply (nxkPageSupplyInitialize 0x3FFF true) (.giveBack 5)

/-- The same supply with a page of the kernel zone, which the destination
search then prefers. -/
def guardedSupply : Supply := apply lowSupply (.giveBack 0x3400)

theorem generic_keepsFloor_guardedSupply :
    (takeAnyOutside 0x20 0x2F).FloorGuarded guardedSupply ∧
      (takeAnyOutside 0x20 0x2F).KeepsFloor guardedSupply := by
  have h : Reached 0x3FFF true guardedSupply :=
    Reached.ops (.start rfl) [.giveBack 5, .giveBack 0x3400] (by decide)
  have hg : (takeAnyOutside 0x20 0x2F).FloorGuarded guardedSupply :=
    .inl ⟨by decide, by decide⟩
  have hgen : (takeAnyOutside 0x20 0x2F).Generic := trivial
  exact ⟨hg, (generic_keepsFloor (by decide) (by decide) h hgen).1 hg⟩

/-- Both a destination search and a run search then hand out page 5, although
the window of the run reaches far above the floor. -/
theorem lowSupply_handsOut :
    Reached 0x3FFF true lowSupply ∧
      (lowSupply.nxkPageSupplyTakeAnyOutside 0x20 0x2F).2 = 5 ∧
      ¬(takeAnyOutside 0x20 0x2F).KeepsFloor lowSupply ∧
      ¬(takeRun 1 0 0x20 1).KeepsFloor lowSupply := by
  refine ⟨Reached.ops (.start rfl) [.giveBack 5] (by decide), by decide, ?_, ?_⟩
  · intro h
    exact absurd (h 5 (by decide)) (by decide)
  · intro h
    exact absurd (h 5 (by decide)) (by decide)

/-! ## The highest free run -/

/-- A base aligned as requested whose pages are all free and lie in
`[max(Low, 1), min(High, Highest)]`. -/
def Supply.FreeRun (s : Supply) (runPages lowPfn highPfn alignPages base : Nat) : Prop :=
  alignPages ∣ base ∧ max lowPfn 1 ≤ base ∧ base + runPages ≤ min highPfn s.highestPfn + 1 ∧
    ∀ q, base ≤ q → q < base + runPages → s.free q = true

/-- The candidates of `NxkPageSupplyTakeRun` for a power-of-two alignment. -/
theorem Inv.runFits_iff {s : Supply} (h : Inv s) {runPages lowPfn highPfn k base : Nat}
    (hrun : 0 < runPages) (hk : k ≤ 31) :
    s.RunFits runPages lowPfn highPfn (2 ^ k) base ↔
      s.FreeRun runPages lowPfn highPfn (2 ^ k) base := by
  have halign : effectiveAlign (2 ^ k) = 2 ^ k := by
    rw [effectiveAlign, if_neg (Nat.two_pow_pos k).ne']
  have hhigh := h.highest_lt
  unfold Supply.RunFits Supply.Candidate Supply.FreeRun Supply.InRunWindow
  rw [halign, h.runTest_fits_iff]
  constructor
  · rintro ⟨-, hwin, hal, hfree⟩
    rw [alignDown_two_pow (by omega) (by omega)] at hal
    refine ⟨?_, by omega, by omega, hfree⟩
    rw [← hal]
    exact roundDown_dvd _ _
  · rintro ⟨hdvd, hlow, hup, hfree⟩
    refine ⟨hrun, by omega, ?_, hfree⟩
    rw [alignDown_two_pow (by omega) (by omega), roundDown_of_dvd hdvd]

/-- `NxkPageSupplyTakeRun` takes the highest free run of the window, fails
exactly when there is none, and changes nothing then. -/
theorem takeRun_highest {s : Supply} (h : Inv s) {runPages : Nat} (hrun : 0 < runPages)
    (lowPfn highPfn : Nat) {k : Nat} (hk : k ≤ 31) :
    ((s.nxkPageSupplyTakeRun runPages lowPfn highPfn (2 ^ k)).2 = 0 ↔
        ∀ b, ¬s.FreeRun runPages lowPfn highPfn (2 ^ k) b) ∧
      ((s.nxkPageSupplyTakeRun runPages lowPfn highPfn (2 ^ k)).2 = 0 →
        (s.nxkPageSupplyTakeRun runPages lowPfn highPfn (2 ^ k)).1 = s) ∧
      ((s.nxkPageSupplyTakeRun runPages lowPfn highPfn (2 ^ k)).2 ≠ 0 →
        IsGreatest {b | s.FreeRun runPages lowPfn highPfn (2 ^ k) b}
            (s.nxkPageSupplyTakeRun runPages lowPfn highPfn (2 ^ k)).2 ∧
          ∀ q, (s.nxkPageSupplyTakeRun runPages lowPfn highPfn (2 ^ k)).1.free q = true ↔
            s.free q = true ∧
              ¬((s.nxkPageSupplyTakeRun runPages lowPfn highPfn (2 ^ k)).2 ≤ q ∧
                q < (s.nxkPageSupplyTakeRun runPages lowPfn highPfn (2 ^ k)).2 + runPages)) := by
  have hpow : PowTwo (2 ^ k) := .inr ⟨k, hk, rfl⟩
  have hfits : ∀ b, s.RunFits runPages lowPfn highPfn (2 ^ k) b ↔
      s.FreeRun runPages lowPfn highPfn (2 ^ k) b := fun b => h.runFits_iff hrun hk
  rcases takeRun_search h runPages lowPfn highPfn (2 ^ k) with
    ⟨hnone, hno⟩ | ⟨base, hbase, heq⟩
  · rw [hnone]
    refine ⟨iff_of_true rfl ?_, fun _ => rfl, absurd rfl⟩
    exact fun b hb => hno hpow b ((hfits b).2 hb)
  have hrunBase := (hfits base).1 hbase.1
  have hpos : base ≠ 0 := by
    have := hrunBase.2.1
    omega
  have htook : TookRun s (s.unlinkRun base runPages) base runPages :=
    h.unlinkRun (fun q hq => hrunBase.2.2.2 q (inRun_iff.1 hq).1 (inRun_iff.1 hq).2)
  rw [heq]
  refine ⟨iff_of_false hpos (fun hall => hall base hrunBase), fun h0 => absurd h0 hpos, ?_⟩
  intro _
  refine ⟨⟨hrunBase, fun b hb => hbase.2 hpow b ((hfits b).2 hb)⟩, ?_⟩
  intro q
  rw [htook.free, Bool.and_eq_true, Bool.not_eq_true', ← Bool.not_eq_true, inRun_iff, and_comm]

/-- Two runs of one page, the higher of which is taken. -/
def twoLowPages : Supply :=
  [Op.giveBack 5, .giveBack 9].foldl apply (nxkPageSupplyInitialize 0x3FFF true)

theorem takeRun_highest_twoLowPages :
    (twoLowPages.nxkPageSupplyTakeRun 1 0 0x20 1).2 = 9 ∧
      IsGreatest {b | twoLowPages.FreeRun 1 0 0x20 1 b} 9 := by
  have hinv : Inv twoLowPages := Inv.reached (by decide) (by decide)
    (Reached.ops (.start rfl) [.giveBack 5, .giveBack 9] (by decide))
  have hres : (twoLowPages.nxkPageSupplyTakeRun 1 0 0x20 (2 ^ 0)).2 = 9 := by decide
  have hmax := ((takeRun_highest hinv Nat.one_pos 0 0x20 (Nat.zero_le 31)).2.2
    (by rw [hres]; decide)).1
  exact ⟨hres, hmax⟩

end Roswell.Ports.PageSupply
