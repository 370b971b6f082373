import Roswell.Ports.PageSupplyDests

/-!
# Relocation through the low physical window

A relocated page is copied between addresses `0x80000000 | PA`, so both frames
must lie in the 64 MB the window at `0x80000000` stands for.  The run itself
does, when the caller's window ends below 64 MB.  The destination depends on
the map shape.  On the retail-shaped map the kernel-preferred class lies below
64 MB and a frame above is taken only when no destination below is left.  On
the devkit-shaped map that class is all memory from 64 MB up, and the search
prefers it.
-/

namespace Roswell.Ports.PageSupply

open Verified.Runs Supply

/-! ## The classes of pages do not change -/

/-- Both supplies cover the same pages and class them the same way. -/
structure SameMap (s t : Supply) : Prop where
  highest : t.highestPfn = s.highestPfn
  classes : ∀ p, t.kernelClass p = s.kernelClass p

namespace SameMap

variable {s t u : Supply}

theorem refl (s : Supply) : SameMap s s := ⟨rfl, fun _ => rfl⟩

theorem trans (h : SameMap s t) (h' : SameMap t u) : SameMap s u :=
  ⟨h'.highest.trans h.highest, fun p => (h'.classes p).trans (h.classes p)⟩

theorem unlink (s : Supply) (page : Nat) : SameMap s (s.nxpUnlink page) :=
  ⟨nxpUnlink_highestPfn, fun _ => nxpUnlink_kernelClass⟩

theorem setEntry (s : Supply) (page v : Nat) : SameMap s (s.setEntry page v) :=
  ⟨rfl, fun _ => rfl⟩

theorem handOver (s : Supply) (dest page : Nat) : SameMap s (s.handOver dest page) :=
  (unlink s dest).trans ((setEntry _ _ _).trans (setEntry _ _ _))

theorem setHint (s : Supply) (hint : Nat) : SameMap s { s with spillHint := hint } :=
  ⟨rfl, fun _ => rfl⟩

theorem giveBack (s : Supply) (page : Nat) : SameMap s (s.nxkPageSupplyReturn page) := by
  rw [Inv.return_eq]
  have hpush : SameMap s (s.nxpPushHead page) :=
    ⟨nxpPushHead_highestPfn, fun _ => nxpPushHead_kernelClass⟩
  exact hpush.trans (setHint _ _)

theorem takeAny (s : Supply) : SameMap s s.nxkPageSupplyTakeAny.1 := by
  unfold nxkPageSupplyTakeAny
  split
  · exact unlink s _
  split
  · exact refl s
  · generalize (if s.spillHint < nxpGenericFloorPfn then nxpGenericFloorPfn
      else s.spillHint) = start
    simp only
    split
    · exact refl s
    · exact (setHint s _).trans (unlink _ _)

theorem takeAnyOutside (s : Supply) (low high : Nat) :
    SameMap s (s.nxkPageSupplyTakeAnyOutside low high).1 := by
  unfold nxkPageSupplyTakeAnyOutside
  simp only
  split_ifs
  iterate 4 exact unlink s _
  exact refl s

theorem unlinkRun (s : Supply) (base n : Nat) : SameMap s (s.unlinkRun base n) := by
  induction n with
  | zero => exact refl s
  | succ n ih => exact ih.trans (unlink _ _)

theorem relocPages (base run n : Nat) (s : Supply) :
    SameMap s (Supply.relocPages base run n s).1 := by
  induction n generalizing s with
  | zero => exact refl s
  | succ n ih =>
    rw [Supply.relocPages]
    simp only
    split
    · exact (unlink s _).trans (ih _)
    · have hout := takeAnyOutside s base (base + run - 1)
      split
      · exact hout
      · exact hout.trans ((setEntry _ _ _).trans ((setEntry _ _ _).trans (ih _)))

theorem step {op : Op} (hst : Step s op t) : SameMap s t := by
  obtain ⟨-, rfl⟩ := hst
  cases op with
  | giveBack page => exact giveBack s page
  | takeAny => exact takeAny s
  | takeAnyOutside low high => exact takeAnyOutside s low high
  | takeSpecific page =>
    simp only [Op.apply, nxkPageSupplyTakeSpecific]
    split
    · exact unlink s page
    · exact refl s
  | takeRun runPages lowPfn highPfn alignPages =>
    simp only [Op.apply, nxkPageSupplyTakeRun]
    split
    · exact refl s
    · split
      · exact refl s
      · exact unlinkRun s _ _
  | takeRunRelocate runPages lowPfn highPfn alignPages =>
    simp only [Op.apply, nxkPageSupplyTakeRunRelocate]
    split
    · exact refl s
    · split
      · exact refl s
      · exact relocPages _ _ _ s
  | setOwner page pteVa =>
    simp only [Op.apply, nxkPageSupplySetOwner]
    split
    · exact setEntry s _ _
    · exact refl s

end SameMap

/-! ## Destinations below 64 MB -/

namespace Supply

/-- No page at or above 64 MB is free. -/
def NoneAbove (s : Supply) : Prop := ∀ p, s.free p = true → p < nxkKseg0RamPages

/-- The kernel-preferred class of the map shape: below 64 MB on the
retail-shaped map, exactly the pages from 64 MB up on the other. -/
def Shaped (s : Supply) (retailShaped : Bool) : Prop :=
  ∀ p, p ≤ s.highestPfn →
    if retailShaped then s.kernelClass p = true → p < nxkKseg0RamPages
    else (s.kernelClass p = true ↔ nxkKseg0RamPages ≤ p)

/-- The destinations below 64 MB that are taken before any above. -/
def mappedSpare (s : Supply) (retailShaped : Bool) (low high : Nat) : Finset Nat :=
  if retailShaped then (s.destinations low high).filter (· < nxkKseg0RamPages) else ∅

theorem mem_mappedSpare {s : Supply} {retailShaped : Bool} {low high p : Nat} :
    p ∈ s.mappedSpare retailShaped low high ↔
      retailShaped = true ∧ p ∈ s.destinations low high ∧ p < nxkKseg0RamPages := by
  unfold mappedSpare
  cases retailShaped with
  | true => simp [Finset.mem_filter]
  | false => simp

theorem Shaped.sameMap {s t : Supply} {retailShaped : Bool} (h : s.Shaped retailShaped)
    (hmap : SameMap s t) : t.Shaped retailShaped := by
  intro p hp
  rw [hmap.highest] at hp
  rw [hmap.classes]
  exact h p hp

end Supply

/-- The shape fixed at initialisation, in every reachable state. -/
theorem Reached.shaped {highestPfn : Nat} {retailShaped : Bool} {s : Supply}
    (h : Reached highestPfn retailShaped s) : s.Shaped retailShaped := by
  have hmap : SameMap (nxkPageSupplyInitialize highestPfn retailShaped) s := by
    refine Reachable.invariant
      ?_ ?_ h
    · rintro _ rfl
      exact SameMap.refl _
    · exact fun _ _ _ hs hst => hs.trans (SameMap.step hst)
  refine Supply.Shaped.sameMap ?_ hmap
  intro p hp
  cases retailShaped with
  | true =>
    simp only [kernelClass, nxkPageSupplyInitialize, if_true, decide_eq_true_eq]
    intro hc
    have := hc.2
    unfold nxkHighZoneLimitPfn at this
    unfold nxkKseg0RamPages
    omega
  | false =>
    have hp' : p ≤ highestPfn := hp
    simp only [kernelClass, nxkPageSupplyInitialize, Bool.false_eq_true,
      if_false, decide_eq_true_eq]
    exact ⟨fun hc => hc.1, fun hc => ⟨hc, hp'⟩⟩

namespace Inv

variable {s s₁ : Supply} {retailShaped : Bool} {high dest page : Nat}

/-- A free page from 64 MB up is a destination for every window below. -/
theorem above_mem_destinations (h : Inv s) (low : Nat) (hwin : high < nxkKseg0RamPages) {p : Nat}
    (hf : s.free p = true) (hp : nxkKseg0RamPages ≤ p) : p ∈ s.destinations low high := by
  have hfl : nxpGenericFloorPfn ≤ p := Nat.le_trans (by decide) hp
  refine h.mem_destinations.2 ⟨hf, h.hint_low p hf hfl, ?_⟩
  simp [inWindow]
  omega

/-- Where one destination lies. -/
theorem takeAnyOutside_mapped (h : Inv s) (low : Nat) (hshape : s.Shaped retailShaped)
    (hwin : high < nxkKseg0RamPages) (hdest : dest ∈ s.destinations low high)
    (htake : s.nxkPageSupplyTakeAnyOutside low high = (s₁, dest)) :
    dest < nxkKseg0RamPages ↔
      s.NoneAbove ∨ (s.mappedSpare retailShaped low high).Nonempty := by
  have hfree := (h.mem_destinations.1 hdest).1
  obtain ⟨kernel, title, hl⟩ := h.lists
  have hfirst : if s.freeHeadKernel ≠ 0 ∧ inWindow low high s.freeHeadKernel = false then
      dest = s.freeHeadKernel else ∀ e ∈ s.destinations low high, dest ≤ e := by
    rcases h.takeAnyOutside_spec low high with ⟨hempty, -⟩ | ⟨page, -, htake', hfirst⟩
    · rw [hempty] at hdest
      exact absurd hdest (Finset.notMem_empty dest)
    · rw [(Prod.mk.inj (htake.symm.trans htake')).2]
      exact hfirst
  cases retailShaped with
  | true =>
    constructor
    · exact fun hlt => .inr ⟨_, mem_mappedSpare.2 ⟨rfl, hdest, hlt⟩⟩
    rintro (hnone | ⟨e, he⟩)
    · exact hnone _ hfree
    obtain ⟨-, hed, helt⟩ := mem_mappedSpare.1 he
    split_ifs at hfirst with hk
    · rw [hfirst] at hfree ⊢
      exact hshape _ (h.free_le hfree) (hl.kernel_class _ (hl.kernel_list.head_mem hk.1))
    · exact Nat.lt_of_le_of_lt (hfirst e hed) helt
  | false =>
    constructor
    · intro hlt
      refine .inl ?_
      intro p hf
      by_contra hge
      -- A free page above puts a page of its class at the head of the kernel list.
      have hpc : s.kernelClass p = true := (hshape p (h.free_le hf)).2 (by omega)
      have hhead : s.freeHeadKernel ≠ 0 := by
        intro hz
        have hm : p ∈ kernel := hl.mem.2 ⟨hf, hpc⟩
        rw [hl.kernel_list.head_eq_zero_iff.1 hz] at hm
        contradiction
      have hmem := hl.kernel_list.head_mem hhead
      have habove : nxkKseg0RamPages ≤ s.freeHeadKernel :=
        (hshape _ (h.free_le (h.kernelHead_free hhead).1)).1 (hl.kernel_class _ hmem)
      have hout : inWindow low high s.freeHeadKernel = false := by
        simp [inWindow]
        omega
      rw [if_pos ⟨hhead, hout⟩] at hfirst
      omega
    · rintro (hnone | ⟨e, he⟩)
      · exact hnone _ hfree
      · exact absurd (mem_mappedSpare.1 he).1 (by decide)

/-- Unlinking a page below 64 MB changes nothing above. -/
theorem noneAbove_unlink (h : Inv s) (hf : s.free page = true)
    (hlt : page < nxkKseg0RamPages) : (s.nxpUnlink page).NoneAbove ↔ s.NoneAbove := by
  constructor
  · intro hn p hp
    by_cases hpp : p = page
    · rw [hpp]
      exact hlt
    · refine hn p ?_
      rw [(h.took hf).free, hp]
      simp [hpp]
  · intro hn p hp
    rw [(h.took hf).free, Bool.and_eq_true] at hp
    exact hn p hp.2

/-- A destination below 64 MB is one less of them. -/
theorem mappedSpare_handOver (h : Inv s) (hdest : s.free dest = true)
    (hf : s.free page = false) (low high : Nat) :
    (s.handOver dest page).mappedSpare retailShaped low high =
      (s.mappedSpare retailShaped low high).erase dest := by
  ext p
  rw [Finset.mem_erase, mem_mappedSpare, mem_mappedSpare,
    h.destinations_handOver hdest hf, Finset.mem_erase]
  tauto

/-- The take loop keeps to 64 MB exactly when no page above is free, or the
destinations below are enough for the last `n` pages of the run. -/
theorem relocPages_mapped (h : Inv s) (hshape : s.Shaped retailShaped) (base : Nat)
    {run n : Nat} (hn : n ≤ run) (hbelow : base + run ≤ nxkKseg0RamPages) :
    (∀ m ∈ (relocPages base run n s).2.2, m.dest < nxkKseg0RamPages) ↔
      s.NoneAbove ∨ (s.inUseIn (base + (run - n)) (base + run)).card ≤
        (s.mappedSpare retailShaped base (base + run - 1)).card := by
  induction n generalizing s with
  | zero =>
    have hnone : s.inUseIn (base + run) (base + run) = ∅ := by simp [inUseIn]
    rw [Nat.sub_zero, hnone]
    simp [relocPages]
  | succ n ih =>
    have hnext : base + (run - n) = base + (run - (n + 1)) + 1 := by omega
    obtain ⟨page, hpage⟩ : ∃ page, base + (run - (n + 1)) = page := ⟨_, rfl⟩
    rw [hpage] at hnext ⊢
    have hwin : base + run - 1 < nxkKseg0RamPages := by
      omega
    have hin : inWindow base (base + run - 1) page = true := by
      simp [inWindow]
      omega
    rcases h.relocPages_succ hpage with ⟨hf, hstep⟩ | ⟨hf, ⟨hempty, -, hstep⟩ |
      ⟨dest, hdest, hs₁, hstep⟩⟩
    · have hspare : (s.nxpUnlink page).mappedSpare retailShaped base (base + run - 1) =
          s.mappedSpare retailShaped base (base + run - 1) := by
        ext p
        rw [mem_mappedSpare, mem_mappedSpare, h.destinations_inside hf hin]
      rw [hstep, inUseIn_free (h.took hf), ← hspare,
        ← h.noneAbove_unlink hf (by omega), ← hnext]
      exact ih (h.took hf).inv (hshape.sameMap (SameMap.unlink s page)) (by omega)
    · rw [hstep]
      refine iff_of_true (by simp) (.inl ?_)
      intro p hp
      by_contra hge
      have hm := h.above_mem_destinations base hwin hp (by omega)
      rw [hempty] at hm
      contradiction
    · have hwhere := h.takeAnyOutside_mapped base hshape hwin hdest hs₁
      have hwas := (h.mem_destinations.1 hdest).1
      rw [hstep]
      simp only [List.mem_cons, forall_eq_or_imp]
      have hfree := h.handOver_free hwas hf
      have hcount := h.inUseIn_handOver hdest hf (by omega) (by omega)
      have hafter := ih (h.handOver hwas hf) (hshape.sameMap (SameMap.handOver s dest page))
        (by omega)
      rw [hnext, h.mappedSpare_handOver hwas hf] at hafter
      have hless : s.NoneAbove → (s.handOver dest page).NoneAbove := by
        intro hna p hp
        rw [hfree, Bool.and_eq_true] at hp
        exact hna p hp.2
      have hmore : dest < nxkKseg0RamPages → (s.handOver dest page).NoneAbove →
          s.NoneAbove := by
        intro hlt hna p hp
        by_cases hpd : p = dest
        · rw [hpd]
          exact hlt
        · refine hna p ?_
          rw [hfree, hp]
          simp [hpd]
      -- A destination below 64 MB is used up before any above is touched.
      have huse : (s.mappedSpare retailShaped base (base + run - 1)).Nonempty →
          dest < nxkKseg0RamPages ∧
            dest ∈ s.mappedSpare retailShaped base (base + run - 1) := by
        rintro ⟨e, he⟩
        have hlt := hwhere.2 (.inr ⟨e, he⟩)
        exact ⟨hlt, mem_mappedSpare.2
          ⟨(mem_mappedSpare.1 he).1, hdest, hlt⟩⟩
      rw [hafter, hwhere, hcount]
      constructor
      · rintro ⟨hn | hne, hrest⟩
        · exact .inl hn
        · obtain ⟨hlt, hmem⟩ := huse hne
          have hpos := Finset.card_pos.2 hne
          rw [Finset.card_erase_of_mem hmem] at hrest
          rcases hrest with hn | hle
          · exact .inl (hmore hlt hn)
          · exact .inr (by omega)
      · rintro (hn | hle)
        · exact ⟨.inl hn, .inl (hless hn)⟩
        · have hne := Finset.card_pos.1 (Nat.lt_of_lt_of_le (Nat.succ_pos _) hle)
          rw [Finset.card_erase_of_mem (huse hne).2]
          exact ⟨.inr hne, .inr (by omega)⟩

end Inv

/-! ## The copies of a relocating allocation -/

namespace Supply

/-- Every page copied, and every page copied to, lies below 64 MB. -/
def CopiesMapped (s : Supply) (runPages lowPfn highPfn alignPages : Nat) : Prop :=
  ∀ m ∈ (s.nxkPageSupplyTakeRunRelocate runPages lowPfn highPfn alignPages).2.2,
    m.page < nxkKseg0RamPages ∧ m.dest < nxkKseg0RamPages

/-- The condition on the state before: no page above 64 MB is free, or the run
that is taken has no more pages in use than there are destinations below 64 MB
that come first. -/
def MappedRoom (s : Supply) (retailShaped : Bool)
    (runPages lowPfn highPfn alignPages : Nat) : Prop :=
  ∀ b, Highest (s.RelocFits runPages lowPfn highPfn alignPages) alignPages b →
    s.NoneAbove ∨ (s.inUseIn b (b + runPages)).card ≤
      (s.mappedSpare retailShaped b (b + runPages - 1)).card

end Supply

/-- In every reachable state of either map shape, a relocation in a window below
64 MB copies between frames below 64 MB when the condition holds; with a
power-of-two alignment only then. -/
theorem relocation_copies_mapped {highestPfn : Nat} (hfl : nxpGenericFloorPfn ≤ highestPfn)
    (hmax : highestPfn ≤ nxpPfnMask) {retailShaped : Bool} {s : Supply}
    (h : Reached highestPfn retailShaped s) (runPages lowPfn alignPages : Nat) {highPfn : Nat}
    (hclamp : highPfn < nxkKseg0RamPages) :
    (s.MappedRoom retailShaped runPages lowPfn highPfn alignPages →
        s.CopiesMapped runPages lowPfn highPfn alignPages) ∧
      (PowTwo alignPages → s.CopiesMapped runPages lowPfn highPfn alignPages →
        s.MappedRoom retailShaped runPages lowPfn highPfn alignPages) := by
  have hinv := Inv.reached hfl hmax h
  unfold Supply.CopiesMapped
  rcases takeRunRelocate_search hinv runPages lowPfn highPfn alignPages with
    ⟨hnone, hno⟩ | ⟨base, hbase, heq⟩
  · rw [hnone]
    refine ⟨fun _ m hm => absurd hm (by simp), ?_⟩
    intro hp _ b hb
    exact absurd hb.1 (hno hp b)
  have hbelow : base + runPages ≤ nxkKseg0RamPages := by
    have := hbase.1.2.1.2.2.1
    omega
  have hmapped := hinv.relocPages_mapped h.shaped base (Nat.le_refl runPages) hbelow
  obtain ⟨hi, -, hhi, hreloc, -⟩ := hinv.relocPages_spec base (Nat.le_refl runPages)
  rw [Nat.sub_self, Nat.add_zero] at hmapped
  rw [heq]
  constructor
  · intro hroom m hm
    have hsource := (hreloc.source m hm).2.1
    exact ⟨by omega, hmapped.2 (hroom base hbase) m hm⟩
  · intro hp hcopies b hb
    have hbeq : b = base := Nat.le_antisymm (hbase.2 hp b hb.1) (hb.2 hp base hbase.1)
    rw [hbeq]
    exact hmapped.1 (fun m hm => (hcopies m hm).2)

/-- A devkit-shaped machine whose only free page is the first one above 64 MB,
with an owned page at `0x100`. -/
def devkitSupply : Supply :=
  [Op.giveBack 0x4000, .setOwner 0x100 (ownerPteVa 0x400)].foldl Op.apply
    (nxkPageSupplyInitialize 0x4000 false)

theorem devkitSupply_reached : Reached 0x4000 false devkitSupply :=
  Reached.ops (.start rfl) _ (by decide)

/-- Relocating that page for a window below 64 MB copies it to `0x84000000`. -/
theorem devkitSupply_copies_above :
    Reached 0x4000 false devkitSupply ∧ 0x100 < nxkKseg0RamPages ∧
      (devkitSupply.nxkPageSupplyTakeRunRelocate 1 0x100 0x100 1).2 =
        (0x100, [⟨0x100, 0x4000, 0x400⟩]) ∧
      ¬devkitSupply.CopiesMapped 1 0x100 0x100 1 := by
  have hmoves : (devkitSupply.nxkPageSupplyTakeRunRelocate 1 0x100 0x100 1).2 =
      (0x100, [⟨0x100, 0x4000, 0x400⟩]) := by decide
  refine ⟨devkitSupply_reached, by decide, hmoves, ?_⟩
  intro hcopies
  unfold Supply.CopiesMapped at hcopies
  exact absurd (hcopies _ List.mem_cons_self).2 (by decide)

/-- A retail machine, which has no page above 64 MB, with a free page of the
kernel zone and an owned page at `0x100`. -/
def retailSupply : Supply :=
  [Op.giveBack 0x3400, .setOwner 0x100 (ownerPteVa 0x400)].foldl Op.apply
    (nxkPageSupplyInitialize 0x3FFF true)

theorem relocation_copies_mapped_retailSupply :
    retailSupply.CopiesMapped 1 0x100 0x100 1 ∧
      (retailSupply.nxkPageSupplyTakeRunRelocate 1 0x100 0x100 1).2.2 =
        [⟨0x100, 0x3400, 0x400⟩] := by
  have hreach : Reached 0x3FFF true retailSupply :=
    Reached.ops (.start rfl) _ (by decide)
  have hnone : retailSupply.NoneAbove := fun p hp =>
    Nat.lt_succ_of_le ((Inv.reached (by decide) (by decide) hreach).free_le hp)
  exact ⟨(relocation_copies_mapped (by decide) (by decide) hreach 1 0x100 1
    (by decide)).1 (fun _ _ => .inl hnone), by decide⟩

end Roswell.Ports.PageSupply
