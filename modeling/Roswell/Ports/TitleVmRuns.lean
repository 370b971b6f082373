import Roswell.Ports.TitleVmLoops
import Roswell.Ports.TitleVmRegions
import Roswell.Ports.PageSupplyRuns

/-!
# Histories of title virtual-memory calls

The invariant `VmInv` joins the region list, the page tables and the two
counters.  It survives every call whose address arithmetic does not leave the
title range; the calls that break it are those whose `base + size` wraps around
or runs past `0x7FFE0000`, which the allocator does not check.
-/

namespace Roswell.Ports.TitleVm

open Verified.Word Verified.Runs PageSupply PageTables

/-- The invariant of the manager between calls. -/
structure VmInv (s : Vm) : Prop where
  regions : RegionsOk s.regions
  reserved : s.reserved = totalSize s.regions
  frames : Frames s
  covered : ∀ q, TitlePage q → s.mem.pt q ≠ 0 → ∃ r ∈ s.regions, r.Holds (q * pageSize)
  unmarked : ∀ q, TitlePage q → fresh (s.mem.pt q) = false

/-- The invariant holds again, and no entry of another address range was
touched. -/
structure Kept (s t : Vm) : Prop where
  inv : VmInv t
  outside : ∀ i, ¬TitleEntry i → t.mem.pt i = s.mem.pt i

variable {l : List Region} {s : Vm} {size : Nat}

theorem Kept.refl (h : VmInv s) : Kept s s := ⟨h, fun _ _ => rfl⟩

theorem Kept.trans {s t u : Vm} (h : Kept s t) (h' : Kept t u) : Kept s u :=
  ⟨h'.inv, fun i hi => (h'.outside i hi).trans (h.outside i hi)⟩

/-- Everything a failed allocation should leave alone: the region list, both
counters, and every entry but those of the page directory, where new page
tables stay. -/
structure Unchanged (s t : Vm) : Prop where
  regions : t.regions = s.regions
  reserved : t.reserved = s.reserved
  committed : t.committed = s.committed
  entries : ∀ i, ¬(0xC0000 ≤ i ∧ i < 0xC0200) → t.mem.pt i = s.mem.pt i

theorem Unchanged.refl (s : Vm) : Unchanged s s := ⟨rfl, rfl, rfl, fun _ _ => rfl⟩

variable {s t : Vm} {p e bits : Nat}

/-- The region of the pages `[p, e)`. -/
def pageRegion (p e protect : Nat) : Region := ⟨p * pageSize, (e - p) * pageSize, protect⟩

theorem pageRegion_holds {protect q : Nat} (hpe : p ≤ e) :
    (pageRegion p e protect).Holds (q * pageSize) ↔ Between p e q := by
  simp only [Region.Holds, pageRegion, Between, pageSize]
  omega

theorem pageRegion_before {protect : Nat} {x : Region} (hpe : p ≤ e) :
    Before (pageRegion p e protect) x ↔ e * pageSize ≤ x.base := by
  simp only [Before, pageRegion, pageSize]
  omega

theorem pageRegion_title (protect : Nat) (hp : 0x10 ≤ p) (hpe : p < e) (he : e ≤ 0x7FFE0) :
    TitleRegion (pageRegion p e protect) where
  base_aligned := ⟨p, Nat.mul_comm _ _⟩
  size_aligned := ⟨e - p, Nat.mul_comm _ _⟩
  size_pos := Nat.mul_pos (by omega) (by decide)
  low := by
    show nxvLowest ≤ p * pageSize
    unfold nxvLowest pageSize
    omega
  high := by
    show p * pageSize + (e - p) * pageSize ≤ nxvHighest
    unfold nxvHighest pageSize
    omega

/-- A title region, as a range of pages. -/
theorem TitleRegion.pages {r : Region} (h : TitleRegion r) :
    ∃ p e, r = pageRegion p e r.allocProtect ∧ r.limit = e * pageSize ∧ 0x10 ≤ p ∧ p < e ∧
      e ≤ 0x7FFE0 := by
  obtain ⟨p, hp⟩ := h.base_aligned
  obtain ⟨n, hn⟩ := h.size_aligned
  have hlow := h.low
  have hhigh := h.high
  have hpos := h.size_pos
  unfold pageSize at hp hn
  unfold nxvLowest at hlow
  unfold nxvHighest at hhigh
  refine ⟨p, p + n, ?_, ?_, by omega, by omega, by omega⟩
  · cases r
    simp only [pageRegion, pageSize, Region.mk.injEq] at hp hn ⊢
    exact ⟨by omega, by rw [Nat.add_sub_cancel_left]; omega, trivial⟩
  · rw [h.limit_eq]
    unfold pageSize
    omega

/-- What the gap search returns for a whole number of pages, as pages. -/
theorem Gap.pages {start n : Nat} (h : Gap l start (pageSize * n))
    (protect : Nat) :
    ∃ p, start = p * pageSize ∧ wadd start (pageSize * n) = (p + n) * pageSize ∧
      (⟨start, pageSize * n, protect⟩ : Region) = pageRegion p (p + n) protect ∧
      0x10 ≤ p ∧ p + n ≤ 0x7FFE0 := by
  have hps : pageSize = 4096 := rfl
  have hmax := nxvHighest_lt
  obtain ⟨g, hg⟩ := h.aligned
  have hlow := h.low
  have hhigh := h.high
  have hstart : start = (g * 16) * pageSize := by
    rw [hg, hps, show nxvGranularity = 65536 from rfl]
    omega
  refine ⟨g * 16, hstart, ?_, ?_, ?_, ?_⟩
  · rw [wadd_of_lt (by omega), hstart, Nat.add_mul, Nat.mul_comm n]
  · rw [pageRegion, Nat.add_sub_cancel_left, ← hstart, Nat.mul_comm n]
  · unfold nxvLowest at hlow
    rw [hstart, hps] at hlow
    omega
  · unfold nxvHighest at hhigh
    rw [hstart, hps] at hhigh
    omega

/-- Page-rounded bounds of a range that stays inside the title range. -/
theorem rounded_range {base size a : Nat} (ha : a = pageSize ∨ a = nxvGranularity)
    (hlow : nxvLowest ≤ base) (hsize : 0 < size) (hhigh : base + size ≤ nxvHighest) :
    ∃ p e, roundDown base a = p * pageSize ∧
      roundUp (wadd base size) pageSize = e * pageSize ∧
      0x10 ≤ p ∧ p < e ∧ e ≤ 0x7FFE0 ∧ p * pageSize ≤ base := by
  have hmax := nxvHighest_lt
  have hpos : 0 < a := by rcases ha with rfl | rfl <;> decide
  have hlowest : a ∣ nxvLowest := by rcases ha with rfl | rfl <;> decide
  have hpage : pageSize ∣ a := by rcases ha with rfl | rfl <;> decide
  have hps : pageSize = 4096 := rfl
  rw [wadd_of_lt (by omega)]
  obtain ⟨p, hp⟩ := Nat.dvd_trans hpage (roundDown_dvd base a)
  obtain ⟨e, he⟩ := roundUp_dvd (base + size) pageSize
  have h1 := le_roundDown hpos hlowest hlow
  have h2 := roundDown_le base a
  have h3 := le_roundUp (by decide)
    (show base + size + (pageSize - 1) < 2 ^ 32 by omega)
  have h4 := roundUp_le (show 0 < pageSize by decide) (by decide)
    hhigh (by omega)
  rw [hp] at h1 h2
  unfold nxvLowest at h1
  unfold nxvHighest at h4
  rw [hps] at hp he h1 h2 h3 h4 ⊢
  exact ⟨p, e, by omega, by omega, by omega, by omega, by omega, by omega⟩

/-- The end of a rounded range, in pages. -/
theorem roundUp_page (x : Nat) :
    roundUp x pageSize = roundUp x pageSize / pageSize * pageSize ∧
      roundUp x pageSize / pageSize < 2 ^ 20 := by
  have hw := wadd_lt x (pageSize - 1)
  unfold roundUp
  unfold pageSize at hw ⊢
  omega

/-- What `NxVmProtectVirtualMemory` can do: its checks confine the range to one region, whose
pages are all committed. -/
theorem RegionsOk.protect_cases (h : RegionsOk s.regions) {baseAddress regionSize : Option Nat}
    {newProtect : Nat} {oldProtect : Bool} {out : Outcome × Option Nat}
    (hout : s.nxVmProtectVirtualMemory baseAddress regionSize newProtect oldProtect = out) :
    (out.1.status ≠ .success ∧ out.1.vm = s) ∨ ∃ base size bits e,
      baseAddress = some base ∧ regionSize = some size ∧ nxvProtectToPte newProtect = some bits ∧
      roundUp (wadd base size) pageSize = e * pageSize ∧ 0x10 ≤ base / pageSize ∧
      base / pageSize < e ∧ e ≤ 0x7FFE0 ∧
      (∀ q, Between (base / pageSize) e q → s.Committed (q * pageSize)) ∧
      out.1.status = .success ∧ out.1.vm =
        protectLoop (e * pageSize) bits (e - base / pageSize) s (base / pageSize * pageSize) ∧
      out.2 = some (nxvPteToProtect (s.nxvPte (base / pageSize * pageSize))) := by
  subst hout
  unfold Vm.nxVmProtectVirtualMemory
  split
  · rename_i base size
    split_ifs
    · exact .inl ⟨nofun, rfl⟩
    cases hprot : nxvProtectToPte newProtect with
    | none => exact .inl ⟨nofun, rfl⟩
    | some bits =>
      obtain ⟨hup, -⟩ := roundUp_page (wadd base size)
      generalize roundUp (wadd base size) pageSize / pageSize = e at hup
      have hdown : roundDown base pageSize = base / pageSize * pageSize := rfl
      simp only [hdown, hup]
      by_cases hempty : e * pageSize ≤ base / pageSize * pageSize
      · rw [if_pos hempty]
        exact .inl ⟨nofun, rfl⟩
      rw [if_neg hempty]
      rw [not_le, page_lt] at hempty
      cases hfind : nxvFindRegion s.regions (base / pageSize * pageSize) with
      | none => exact .inl ⟨nofun, rfl⟩
      | some found =>
        obtain ⟨before, r, after⟩ := found
        obtain ⟨hl, hholds⟩ := h.findRegion_some hfind
        obtain ⟨a, b, hr, hlim, ha, hab, hb⟩ := (h.title r (by rw [hl]; simp)).pages
        rw [hr, pageRegion_holds hab.le] at hholds
        simp only [hlim]
        by_cases hend : b * pageSize < e * pageSize
        · rw [if_pos hend]
          exact .inl ⟨nofun, rfl⟩
        rw [if_neg hend, pageSpan_mul]
        rw [page_lt] at hend
        split_ifs with hall
        · exact .inl ⟨nofun, rfl⟩
        · rw [Bool.not_eq_false, allCommitted_iff (by omega) rfl] at hall
          exact .inr ⟨base, size, bits, e, rfl, rfl, rfl, hup, by omega, hempty, by omega, hall,
            rfl, rfl, rfl⟩
  · exact .inl ⟨nofun, rfl⟩

/-- An empty range takes nothing. -/
theorem commitRange_empty (s : Vm) (bits : Nat) {start stop : Nat} (h : stop ≤ start) :
    s.nxvCommitRange start stop bits = (s, .success) := by
  have hspan : pageSpan start stop = 0 := by
    unfold pageSpan pageSize
    omega
  rw [Vm.nxvCommitRange, hspan]
  rfl

/-- A reservation whose range is empty fails only for want of a region record. -/
theorem reserve_empty_clean {region : Region} {start stop : Nat} (hstop : stop ≤ start)
    {commit poolOk : Bool} {status : Status}
    (ht : s.reserveRegion region start stop bits commit poolOk = (t, status))
    (hfail : status ≠ .success) : Unchanged s t := by
  unfold Vm.reserveRegion at ht
  by_cases hpool : poolOk = false
  · rw [if_pos hpool] at ht
    cases ht
    exact Unchanged.refl s
  · rw [if_neg hpool] at ht
    simp only [commitRange_empty _ bits hstop, ite_self] at ht
    cases ht
    exact absurd rfl hfail

/-- Going down by more than the title range wraps around. -/
theorem wraps_below {x size : Nat} (hlow : nxvLowest ≤ x) (hhigh : x ≤ nxvHighest)
    (hsize : nxvHighest < size) (hword : size < 2 ^ 32) :
    wadd (roundDown (wsub x size) nxvGranularity) size ≤
      roundDown (wsub x size) nxvGranularity := by
  have hg : nxvGranularity = 65536 := rfl
  have hl : nxvLowest = 65536 := rfl
  rw [wadd_eq, wsub_eq, roundDown, hg]
  omega

/-- A size larger than the title range makes the end wrap around, bottom-up. -/
theorem findGapUp_wraps (hl : ∀ r ∈ l, r.base ≤ nxvHighest)
    (hsize : nxvHighest < size) (hword : size < 2 ^ 32) (cursor : Nat) :
    findGapUp size cursor l = 0 ∨
      wadd (findGapUp size cursor l) size ≤ findGapUp size cursor l := by
  induction l generalizing cursor with
  | nil =>
    rw [findGapUp]
    split_ifs with hfit
    · rw [wadd_eq] at hfit ⊢
      exact .inr (by omega)
    · exact .inl rfl
  | cons r l ih =>
    have hr := hl r List.mem_cons_self
    have hrest := fun x hx => hl x (List.mem_cons_of_mem _ hx)
    rw [findGapUp, if_neg (by omega)]
    split
    · exact ih hrest _
    · exact ih hrest _

/-- The same top-down. -/
theorem findGapDown_wraps
    (hl : ∀ r ∈ l, nxvLowest ≤ r.base ∧ r.base ≤ nxvHighest)
    (hsize : nxvHighest < size) (hword : size < 2 ^ 32) {cursor : Nat}
    (hcursor : wadd cursor size ≤ cursor) :
    findGapDown size cursor l = 0 ∨
      wadd (findGapDown size cursor l) size ≤ findGapDown size cursor l := by
  have hstop : ∀ {c : Nat}, wadd c size ≤ c → (if nxvLowest ≤ c then c else 0) = 0 ∨
      wadd (if nxvLowest ≤ c then c else 0) size ≤ if nxvLowest ≤ c then c else 0 := by
    intro c hc
    split_ifs with hlow
    · exact .inr hc
    · exact .inl rfl
  induction l generalizing cursor with
  | nil => exact hstop hcursor
  | cons r l ih =>
    have hr := hl r List.mem_cons_self
    have hrest := fun x hx => hl x (List.mem_cons_of_mem _ hx)
    rw [findGapDown]
    split
    · exact hstop hcursor
    · split
      · exact .inl rfl
      · exact ih hrest (wraps_below hr.1 hr.2 hsize hword)

/-- What the gap search returns for a size larger than the title range ends,
with the wrapping sum, at or below its start. -/
theorem RegionsOk.findGap_wraps (h : RegionsOk l)
    (hsize : nxvHighest < size) (hword : size < 2 ^ 32) {topDown : Bool}
    (hne : nxvFindGap l size topDown ≠ 0) :
    wadd (nxvFindGap l size topDown) size ≤ nxvFindGap l size topDown := by
  have hbases : ∀ r ∈ l, nxvLowest ≤ r.base ∧ r.base ≤ nxvHighest := by
    intro r hr
    have hlow := (h.title r hr).low
    have hhigh := (h.title r hr).high
    exact ⟨hlow, by omega⟩
  unfold nxvFindGap at hne ⊢
  cases topDown with
  | true =>
    exact (findGapDown_wraps (fun r hr => hbases r (List.mem_reverse.1 hr)) hsize hword
      (wraps_below (by decide) (Nat.le_refl _) hsize hword)).resolve_left hne
  | false =>
    exact (findGapUp_wraps (fun r hr => (hbases r hr).2) hsize hword _).resolve_left hne

/-- Regions are not what the frames depend on. -/
theorem Frames.relisted (h : Frames s) (l : List Region) (reserved : Nat) :
    Frames { s with regions := l, reserved := reserved } := { h with }

namespace VmInv

theorem unmarked_between (h : VmInv s) (hp : 0x10 ≤ p) (he : e ≤ 0x7FFE0) :
    ∀ q, Between p e q → fresh (s.mem.pt q) = false :=
  fun q hq => h.unmarked q ⟨hp.trans hq.1, Nat.lt_of_lt_of_le hq.2 he⟩

/-- Entries change that are covered and unmarked afterwards. -/
theorem changed (h : VmInv s) {P : Nat → Prop} (hch : Changed P s t)
    (hcovered : ∀ q, TitlePage q → P q → t.mem.pt q ≠ 0 →
      ∃ r ∈ s.regions, r.Holds (q * pageSize))
    (hclear : ∀ q, P q → fresh (t.mem.pt q) = false) : Kept s t := by
  refine ⟨⟨?_, ?_, hch.frames, ?_, ?_⟩, hch.outside⟩
  · rw [hch.regions]
    exact h.regions
  · rw [hch.reserved, hch.regions]
    exact h.reserved
  · intro q hq hne
    rw [hch.regions]
    by_cases hin : P q
    · exact hcovered q hq hin hne
    · rw [hch.other q hq hin] at hne
      exact h.covered q hq hne
  · intro q hq
    by_cases hin : P q
    · exact hclear q hin
    · rw [hch.other q hq hin]
      exact h.unmarked q hq

/-- A range that overlaps no region misses each of them. -/
theorem miss (h : VmInv s) (hpe : p ≤ e) (protect : Nat)
    (hov : nxvRangeOverlapsRegion s.regions (p * pageSize) (e * pageSize) = false) :
    ∀ x ∈ s.regions, Before (pageRegion p e protect) x ∨ Before x (pageRegion p e protect) := by
  intro x hx
  exact (h.regions.overlaps_false hov x hx).imp_left (pageRegion_before hpe).2

/-- Title space outside every region has no entries. -/
theorem empty_of_miss (h : VmInv s) {protect : Nat} (hp : 0x10 ≤ p) (hpe : p ≤ e)
    (he : e ≤ 0x7FFE0)
    (hmiss : ∀ x ∈ s.regions, Before (pageRegion p e protect) x ∨
      Before x (pageRegion p e protect)) :
    ∀ q, Between p e q → s.mem.pt q = 0 := by
  intro q hq
  by_contra hne
  obtain ⟨r, hr, hlo, hhi⟩ := h.covered q ⟨by omega, by omega⟩ hne
  have hb := hmiss r hr
  unfold Before pageRegion at hb
  simp only at hb
  unfold pageSize at hlo hhi hb
  omega

/-! ## Reserve and commit -/

theorem insert (h : VmInv s) {r : Region} (hr : TitleRegion r)
    (hmiss : ∀ x ∈ s.regions, Before r x ∨ Before x r) : Kept s (s.nxvInsertRegion r) := by
  have hok := h.regions.insert hr hmiss
  have hlt := hok.totalSize_lt
  rw [RegionsOk.totalSize_insertByBase] at hlt
  refine ⟨⟨hok, ?_, ?_, ?_, h.unmarked⟩, fun _ _ => rfl⟩
  · show wadd s.reserved r.size = totalSize (insertByBase r s.regions)
    rw [RegionsOk.totalSize_insertByBase, h.reserved, wadd_of_lt (by omega)]
    omega
  · exact h.frames.relisted _ _
  · intro q hq hne
    obtain ⟨x, hx, hh⟩ := h.covered q hq hne
    exact ⟨x, RegionsOk.mem_insertByBase.2 (.inr hx), hh⟩

/-- A commit inside one region, whether it succeeds or not. -/
theorem commit (h : VmInv s) (hb : EntryBits bits) {r : Region} (hr : r ∈ s.regions)
    (hp : 0x10 ≤ p) (hpe : p ≤ e) (he : e ≤ 0x7FFE0)
    (hin : ∀ q, Between p e q → r.Holds (q * pageSize)) {status : Status}
    (ht : s.nxvCommitRange (p * pageSize) (e * pageSize) bits = (t, status)) :
    Kept s t := by
  obtain ⟨hch, hclear, -⟩ := h.frames.commitRange hb hp hpe he (h.unmarked_between hp he) ht
  exact h.changed hch (fun q _ hq _ => ⟨r, hr, hin q hq⟩) hclear

/-- Reserving free title space, with or without committing it.  When it fails, nothing has
changed: the space is as empty as before, and the region goes again. -/
theorem reserve (h : VmInv s) (hb : EntryBits bits) (hp : 0x10 ≤ p) (hpe : p < e)
    (he : e ≤ 0x7FFE0) {protect : Nat}
    (hmiss : ∀ x ∈ s.regions, Before (pageRegion p e protect) x ∨
      Before x (pageRegion p e protect))
    {commit poolOk : Bool} {status : Status}
    (ht : s.reserveRegion (pageRegion p e protect) (p * pageSize) (e * pageSize) bits commit
      poolOk = (t, status)) : Kept s t ∧ (status ≠ .success → Unchanged s t) := by
  have hins := h.insert (pageRegion_title protect hp hpe he) hmiss
  unfold Vm.reserveRegion at ht
  by_cases hpool : poolOk = false
  · rw [if_pos hpool] at ht
    cases ht
    exact ⟨Kept.refl h, fun _ => Unchanged.refl s⟩
  simp only at ht
  split_ifs at ht with hcm
  · cases ht
    exact ⟨hins, absurd rfl⟩
  rcases hs₂ : (s.nxvInsertRegion (pageRegion p e protect)).nxvCommitRange (p * pageSize) (e *
    pageSize) bits with ⟨s₂, status₂⟩
  rw [hs₂] at ht
  by_cases hok : status₂ = .success
  · subst hok
    cases ht
    exact ⟨hins.trans (hins.inv.commit hb (RegionsOk.mem_insertByBase.2 (.inl rfl)) hp hpe.le he
      (fun q hq => (pageRegion_holds hpe.le).2 hq) hs₂), absurd rfl⟩
  obtain ⟨hch, -, -, -, hfailed⟩ := hins.inv.frames.commitRange hb hp hpe.le he
    (h.unmarked_between hp he) hs₂
  have hz := h.empty_of_miss hp hpe.le he hmiss
  have hcase : t = { s₂ with
        regions := s.regions
        reserved := wsub s₂.reserved (pageRegion p e protect).size } := by
    cases status₂ <;> first | exact absurd rfl hok | (cases ht; rfl)
  have hclean : Unchanged s t := by
    rw [hcase]
    refine ⟨rfl, ?_, (hfailed hok).1, ?_⟩
    · have hlt := hins.inv.regions.totalSize_lt
      have hsum := RegionsOk.totalSize_insertByBase (pageRegion p e protect) s.regions
      have hreg : (s.nxvInsertRegion (pageRegion p e protect)).regions =
          insertByBase (pageRegion p e protect) s.regions := rfl
      show wsub s₂.reserved (pageRegion p e protect).size = s.reserved
      rw [hreg, hsum] at hlt
      rw [hch.reserved, hins.inv.reserved, h.reserved, hreg, hsum, wsub_of_le (by omega) (by omega)]
      omega
    · intro i hi
      by_cases hbt : Between p e i
      · exact ((hfailed hok).2 i hbt).trans (if_neg fun hc => hc.1 (hz i hbt))
      · by_cases htitle : TitlePage i
        · exact hch.other i htitle hbt
        · exact hch.outside i (fun hte => hte.elim htitle hi)
  refine ⟨⟨⟨?_, ?_, ?_, ?_, ?_⟩, ?_⟩, fun _ => hclean⟩
  · rw [hclean.regions]
    exact h.regions
  · rw [hclean.reserved, hclean.regions]
    exact h.reserved
  · rw [hcase]
    exact hch.frames.relisted _ _
  · intro q hq hne
    rw [hclean.entries q (by omega)] at hne
    rw [hclean.regions]
    exact h.covered q hq hne
  · intro q hq
    rw [hclean.entries q (by omega)]
    exact h.unmarked q hq
  · rw [hcase]
    exact hch.outside

/-! ## Allocate -/

/-- At an address of the manager's choice. -/
theorem allocateAnywhere (h : VmInv s) (hb : EntryBits bits) (size allocationType protect : Nat)
    (poolOk : Bool) {out : Outcome}
    (hout : s.allocateAnywhere size allocationType protect bits poolOk = out) :
    (0 < size → size ≤ nxvHighest → Kept s out.vm) ∧
      (out.status ≠ .success → Unchanged s out.vm) := by
  have hmax := nxvHighest_lt
  have hps : pageSize = 4096 := rfl
  have hword : roundUp size pageSize < 2 ^ 32 :=
    Nat.lt_of_le_of_lt (Nat.div_mul_le_self _ _) (wadd_lt _ _)
  obtain ⟨n, hn⟩ := roundUp_dvd size pageSize
  have hfits : 0 < size → size ≤ nxvHighest → roundUp size pageSize ≤ nxvHighest ∧ 0 < n := by
    intro hpos hsize
    have hround : size + (pageSize - 1) < 2 ^ 32 := by omega
    have hup := le_roundUp (by decide) hround
    refine ⟨roundUp_le (by decide) (by decide) hsize hround, Nat.pos_of_ne_zero ?_⟩
    rintro rfl
    omega
  subst hout
  unfold Vm.allocateAnywhere
  simp only
  split_ifs with h0
  · exact ⟨fun _ _ => Kept.refl h, fun _ => Unchanged.refl s⟩
  generalize hstart : nxvFindGap s.regions (roundUp size pageSize)
    (flagOn allocationType memTopDown) = start at h0 ⊢
  rcases ht : s.reserveRegion ⟨start, roundUp size pageSize, protect⟩ start
    (wadd start (roundUp size pageSize)) bits (flagOn allocationType memCommit) poolOk
    with ⟨t, status⟩
  -- Either the range is free title space or it is empty.
  have hspec : (0 < size → size ≤ nxvHighest → Kept s t) ∧
      (status ≠ .success → Unchanged s t) := by
    by_cases hle : roundUp size pageSize ≤ nxvHighest
    · have hgap := h.regions.findGap hle (hstart.trans_ne h0)
      rw [hstart, hn] at hgap
      rw [hn] at ht
      obtain ⟨p, rfl, hstop, hregion, hlow, hhigh⟩ := hgap.pages protect
      have hmiss := hgap.miss
      rcases Nat.eq_zero_or_pos n with rfl | hpos
      · exact ⟨fun h1 h2 => absurd (hfits h1 h2).2 (by decide),
          reserve_empty_clean (by rw [hstop]; rfl) ht⟩
      · rw [hstop, hregion] at ht
        obtain ⟨hkept, hclean⟩ := h.reserve hb hlow (by omega) hhigh (hregion ▸ hmiss) ht
        exact ⟨fun _ _ => hkept, hclean⟩
    · refine ⟨fun h1 h2 => absurd (hfits h1 h2).1 hle, reserve_empty_clean ?_ ht⟩
      rw [← hstart]
      exact h.regions.findGap_wraps (by omega) hword (hstart.trans_ne h0)
  cases status <;> exact hspec

/-- At a given address. -/
theorem reserveAt (h : VmInv s) (hb : EntryBits bits) {base size : Nat}
    (allocationType protect : Nat) (hlow : nxvLowest ≤ base)
    (hhigh : roundUp (wadd base size) pageSize ≤ nxvHighest) (poolOk : Bool) {out : Outcome}
    (hout : s.reserveAt base size allocationType protect bits poolOk = out) :
    (0 < size → base + size ≤ nxvHighest → Kept s out.vm) ∧
      (out.status ≠ .success → Unchanged s out.vm) := by
  have hps : pageSize = 4096 := rfl
  obtain ⟨p, hp⟩ := Nat.dvd_trans (show pageSize ∣ nxvGranularity by decide)
    (roundDown_dvd base nxvGranularity)
  have hpl := le_roundDown (show 0 < nxvGranularity by decide)
    (by decide) hlow
  have hpb := roundDown_le base nxvGranularity
  have hpos : 0 < size → base + size ≤ nxvHighest →
      roundDown base nxvGranularity < roundUp (wadd base size) pageSize := by
    intro hpos hin
    have hmax := nxvHighest_lt
    have hup := le_roundUp (by decide)
      (show base + size + (pageSize - 1) < 2 ^ 32 by omega)
    rw [wadd_of_lt (by omega)]
    omega
  obtain ⟨hstop, -⟩ := roundUp_page (wadd base size)
  generalize roundUp (wadd base size) pageSize / pageSize = e at hstop
  rw [Nat.mul_comm] at hp
  subst hout
  unfold Vm.reserveAt
  simp only [hp, hstop] at hpos ⊢
  rw [hstop] at hhigh
  rw [hp] at hpl
  split_ifs with hov
  · exact ⟨fun _ _ => Kept.refl h, fun _ => Unchanged.refl s⟩
  rw [Bool.not_eq_true] at hov
  rcases ht : s.reserveRegion ⟨p * pageSize, wsub (e * pageSize) (p * pageSize), protect⟩
    (p * pageSize) (e * pageSize) bits (flagOn allocationType memCommit) poolOk
    with ⟨t, status⟩
  have hspec : (0 < size → base + size ≤ nxvHighest → Kept s t) ∧
      (status ≠ .success → Unchanged s t) := by
    by_cases hpe : p < e
    · have hsize : wsub (e * pageSize) (p * pageSize) = (e - p) * pageSize := by
        rw [wsub_of_le (Nat.mul_le_mul_right _ hpe.le) (Nat.lt_of_le_of_lt hhigh (by decide)),
          Nat.sub_mul]
      rw [hsize] at ht
      unfold nxvLowest at hpl
      unfold nxvHighest at hhigh
      rw [hps] at hpl hhigh
      obtain ⟨hkept, hclean⟩ := h.reserve hb (e := e) (by omega) hpe (by omega)
        (h.miss hpe.le protect hov) ht
      exact ⟨fun _ _ => hkept, hclean⟩
    · have hle : e * pageSize ≤ p * pageSize := Nat.mul_le_mul_right _ (by omega)
      exact ⟨fun h1 h2 => absurd (hpos h1 h2) (Nat.not_lt.2 hle), reserve_empty_clean hle ht⟩
  cases status <;> exact hspec

/-- The tail of an explicit commit, once a region holds the range. -/
theorem finishCommit (h : VmInv s) (hb : EntryBits bits) {r : Region} (hr : r ∈ s.regions)
    (hp : 0x10 ≤ p) (hpe : p ≤ e) (he : e ≤ 0x7FFE0)
    (hin : ∀ q, Between p e q → r.Holds (q * pageSize)) (base size : Nat) :
    Kept s (match s.nxvCommitRange (p * pageSize) (e * pageSize) bits with
      | (s₂, .success) => (⟨s₂, .success, some (p * pageSize),
          some (wsub (e * pageSize) (p * pageSize))⟩ : Outcome)
      | (s₂, status) => ⟨s₂, status, some base, some size⟩).vm := by
  obtain ⟨t, status, ht⟩ : ∃ t status,
    s.nxvCommitRange (p * pageSize) (e * pageSize) bits = (t, status) := ⟨_, _, rfl⟩
  have hkept := h.commit hb hr hp hpe he hin ht
  rw [ht]
  cases status <;> exact hkept

theorem commitAt (h : VmInv s) (hb : EntryBits bits) {base size protect : Nat}
    (hlow : nxvLowest ≤ base) (hpos : 0 < size) (hhigh : base + size ≤ nxvHighest)
    (poolOk : Bool) : Kept s (s.commitAt base size protect bits poolOk).vm := by
  obtain ⟨p, e, hstart, hstop, h1, h2, h3, -⟩ := rounded_range (.inl rfl) hlow hpos hhigh
  unfold Vm.commitAt
  simp only [hstart, hstop]
  cases hfind : nxvFindRegion s.regions (p * pageSize) with
  | some found =>
    obtain ⟨before, r, after⟩ := found
    obtain ⟨hl, hholds⟩ := h.regions.findRegion_some hfind
    have hr : r ∈ s.regions := by rw [hl]; simp
    have hlim := (h.regions.title r hr).limit_eq
    simp only
    split_ifs with hlt
    · exact Kept.refl h
    refine h.finishCommit hb hr h1 h2.le h3 ?_ base size
    intro q hq
    have hbase := hholds.1
    unfold Region.Holds
    unfold pageSize at hbase hlt ⊢
    omega
  | none =>
    have hround : roundDown (p * pageSize) nxvGranularity = p / 16 * 16 * pageSize := by
      unfold roundDown nxvGranularity pageSize
      omega
    simp only [hround]
    by_cases hov : nxvRangeOverlapsRegion s.regions (p / 16 * 16 * pageSize)
        (e * pageSize) = true
    · rw [if_pos hov]
      exact Kept.refl h
    rw [if_neg hov]
    rw [Bool.not_eq_true] at hov
    split_ifs with hpool
    · exact Kept.refl h
    have hsize : wsub (e * pageSize) (p / 16 * 16 * pageSize) =
        (e - p / 16 * 16) * pageSize := by
      unfold pageSize
      rw [wsub_of_le (by omega) (by omega)]
      omega
    have hmiss := h.miss (by omega) protect hov
    rw [hsize, show (⟨p / 16 * 16 * pageSize, (e - p / 16 * 16) * pageSize, protect⟩ :
      Region) = pageRegion (p / 16 * 16) e protect from rfl]
    have hins := h.insert (pageRegion_title protect (by omega) (by omega) h3) hmiss
    refine hins.trans (hins.inv.finishCommit hb (RegionsOk.mem_insertByBase.2 (.inl rfl))
      h1 h2.le h3 ?_ base size)
    intro q hq
    refine (pageRegion_holds (by omega)).2 ⟨?_, hq.2⟩
    omega

/-- `NxVmAllocateVirtualMemory`, for arguments whose range stays inside the
title range. -/
theorem allocate (h : VmInv s) {baseAddress regionSize : Option Nat}
    {allocationType protect : Nat} {poolOk : Bool}
    (hin : ∀ base size, baseAddress = some base → regionSize = some size →
      (base = 0 → size ≤ nxvHighest) ∧
        (nxvLowest ≤ base → base < nxvHighest → base + size ≤ nxvHighest)) :
    Kept s (s.nxVmAllocateVirtualMemory baseAddress regionSize allocationType protect
      poolOk).vm := by
  unfold Vm.nxVmAllocateVirtualMemory
  split
  · rename_i base size
    obtain ⟨hnull, hrange⟩ := hin base size rfl rfl
    by_cases hpos : size = 0
    · rw [if_pos hpos]
      exact Kept.refl h
    rw [if_neg hpos]
    split
    · exact Kept.refl h
    cases hprot : nxvProtectToPte protect with
    | none => exact Kept.refl h
    | some bits =>
      have hb := nxvProtectToPte_bits hprot
      simp only
      split
      · exact Kept.refl h
      by_cases h0 : base = 0
      · rw [if_pos h0]
        exact (h.allocateAnywhere hb _ _ _ _ rfl).1 (Nat.pos_of_ne_zero hpos) (hnull h0)
      rw [if_neg h0]
      split
      · next hout => exact Kept.refl h
      · next hout =>
        have hhigh := hrange (by omega) (by omega)
        split
        · have hmax := nxvHighest_lt
          have hword : base + size + (pageSize - 1) < 2 ^ 32 := by
            unfold pageSize
            omega
          have hround : roundUp (wadd base size) pageSize ≤ nxvHighest := by
            rw [wadd_of_lt (by omega)]
            exact roundUp_le (by decide) (by decide) hhigh hword
          exact (h.reserveAt hb _ _ (by omega) hround _ rfl).1 (Nat.pos_of_ne_zero hpos) hhigh
        · exact h.commitAt hb (by omega) (Nat.pos_of_ne_zero hpos) hhigh poolOk
  · exact Kept.refl h

/-! ## Free -/

/-- A new region list over unchanged page tables. -/
theorem relist (h : VmInv s) {l : List Region} {reserved : Nat} (hok : RegionsOk l)
    (hres : reserved = totalSize l)
    (hcov : ∀ q, TitlePage q → s.mem.pt q ≠ 0 → ∃ r ∈ l, r.Holds (q * pageSize)) :
    Kept s { s with regions := l, reserved := reserved } := by
  exact ⟨⟨hok, hres, h.frames.relisted _ _, hcov, h.unmarked⟩, fun _ _ => rfl⟩

/-- Decommitting a range of title pages. -/
theorem decommitRange (h : VmInv s) (hp : 0x10 ≤ p) (he : e ≤ 0x7FFE0) :
    Kept s (s.nxvDecommitRange (p * pageSize) (e * pageSize)) := by
  obtain ⟨hch, hzero⟩ := h.frames.decommitRange hp he
  refine h.changed hch (fun q _ hq hne => absurd (hzero q hq) hne) fun q hq => ?_
  rw [hzero q hq]
  rfl

section Carve

variable {a b protect : Nat} {before after : List Region}

/-- What is left of the region of pages `a..b` without the pages `p..e`. -/
def remnants (a p e b protect : Nat) : List Region :=
  (if a < p then [pageRegion a p protect] else []) ++
    if e < b then [pageRegion e b protect] else []

theorem mem_remnants {r : Region} : r ∈ remnants a p e b protect ↔
    (a < p ∧ r = pageRegion a p protect) ∨ (e < b ∧ r = pageRegion e b protect) := by
  unfold remnants
  split_ifs <;> simp_all

theorem remnants_ok (ha : 0x10 ≤ a) (hpe : p < e) (hap : a ≤ p) (heb : e ≤ b)
    (hb : b ≤ 0x7FFE0) : RegionsOk (remnants a p e b protect) where
  title := by
    intro r hr
    rcases mem_remnants.1 hr with ⟨hlt, rfl⟩ | ⟨hlt, rfl⟩
    · exact pageRegion_title protect ha hlt (by omega)
    · exact pageRegion_title protect (by omega) hlt hb
  sorted := by
    unfold remnants
    split_ifs
    · simpa using (pageRegion_before hap).2 (Nat.mul_le_mul_right _ hpe.le)
    all_goals simp

variable (h : VmInv s) (hl : s.regions = before ++ pageRegion a b protect :: after)
  (ha : 0x10 ≤ a) (hap : a ≤ p) (hpe : p < e) (heb : e ≤ b) (hb : b ≤ 0x7FFE0)
include h hl ha hap hpe heb hb

/-- A release leaves the remnants of the region in its place, unless there are two
and no record for the second. -/
theorem carve_eq (poolOk : Bool) :
    (s.carve before (pageRegion a b protect) after (p * pageSize) (e * pageSize) poolOk).1 =
      if p ≠ a ∧ e ≠ b ∧ poolOk = false then s
      else { s with
        regions := before ++ (remnants a p e b protect ++ after)
        reserved := totalSize (before ++ (remnants a p e b protect ++ after)) } := by
  have hok := h.regions
  have hres := h.reserved
  rw [hl] at hok hres
  have htot := hok.totalSize_lt
  have hsum : s.reserved = (b - a) * pageSize + totalSize (before ++ after) := by
    simp only [hres, totalSize_append, totalSize_cons, pageRegion]
    omega
  have hlim : (pageRegion a b protect).limit = b * pageSize := by
    rw [(pageRegion_title protect ha (by omega) hb).limit_eq]
    simp only [pageRegion, pageSize]
    omega
  have hwsub : ∀ {x y : Nat}, x ≤ y → y ≤ b →
      wsub (y * pageSize) (x * pageSize) = (y - x) * pageSize := by
    intro x y hxy hy
    unfold pageSize
    rw [wsub_of_le (by omega) (by omega), Nat.sub_mul]
  have heq : ∀ x y, x * pageSize = y * pageSize ↔ x = y := by
    intro x y
    unfold pageSize
    omega
  have hcut : wsub s.reserved ((e - p) * pageSize) = s.reserved - (e - p) * pageSize := by
    unfold pageSize at hsum ⊢
    exact wsub_of_le (by omega) (by omega)
  unfold Vm.carve remnants
  simp only [hlim, hwsub hpe.le heb, hwsub hap (by omega), hwsub heb (Nat.le_refl b),
    show (pageRegion a b protect).base = a * pageSize from rfl,
    show (pageRegion a b protect).size = (b - a) * pageSize from rfl, heq, hcut]
  rw [← hres, hsum] at htot
  by_cases hfront : p = a
  · subst hfront
    by_cases hback : e = b
    · subst hback
      simp [hsum]
    · have hright : e < b := Nat.lt_of_le_of_ne heb hback
      simp [hback, hright, hsum, hwsub (show e - p ≤ b - p by omega) (Nat.sub_le b p)]
      simp only [pageRegion, pageSize, Region.mk.injEq, true_and, and_true]
      omega
  · have hleft : a < p := by omega
    by_cases hback : e = b
    · subst hback
      simp [hfront, hleft, hsum]
      simp only [pageRegion, pageSize, true_and]
      omega
    · have hright : e < b := Nat.lt_of_le_of_ne heb hback
      have hpos : (e - p) * pageSize ≤ s.reserved := by
        unfold pageSize at hsum ⊢
        omega
      cases poolOk with
      | false =>
        simp [hfront, hback]
        rw [wadd_of_lt (by omega), Nat.sub_add_cancel hpos]
      | true =>
        simp [hfront, hback, hleft, hright, Vm.nxvInsertRegion]
        constructor
        · rw [List.append_cons, RegionsOk.insertByBase_append, List.append_assoc]
          · rfl
          · intro x hx
            rcases List.mem_append.1 hx with hx | hx
            · exact (Nat.le_add_right _ _).trans ((hok.before_mem x hx).trans
                (Nat.mul_le_mul_right _ (by omega)))
            · rw [List.mem_singleton.1 hx]
              exact Nat.mul_le_mul_right _ (by omega)
          · intro x hx
            exact (Nat.mul_lt_mul_of_pos_right hright (by decide)).trans_le
              ((pageRegion_before (by omega)).1 (hok.after_mem x hx))
        · rw [hsum]
          simp only [pageRegion, pageSize, totalSize_append] at htot ⊢
          rw [wadd_of_lt (by omega), wsub_of_le (by omega) (by omega)]
          omega

/-- Carving a decommitted range out of its region. -/
theorem carve (hzero : ∀ q, Between p e q → s.mem.pt q = 0) (poolOk : Bool) :
    Kept s (s.carve before (pageRegion a b protect) after (p * pageSize) (e * pageSize)
      poolOk).1 := by
  rw [h.carve_eq hl ha hap hpe heb hb]
  split_ifs with hfull
  · exact Kept.refl h
  have hok := h.regions
  rw [hl] at hok
  refine h.relist (hok.splice (remnants_ok ha hpe hap heb hb) ?_) rfl ?_
  · intro r hr
    rcases mem_remnants.1 hr with ⟨hlt, rfl⟩ | ⟨hlt, rfl⟩
    all_goals
      simp only [pageRegion, pageSize]
      omega
  · intro q hq hne
    obtain ⟨r, hr, hh⟩ := h.covered q hq hne
    rw [hl, List.mem_append, List.mem_cons] at hr
    rcases hr with hr | rfl | hr
    · exact ⟨r, by simp [hr], hh⟩
    · rw [pageRegion_holds (by omega)] at hh
      have hout : ¬Between p e q := fun hc => hne (hzero q hc)
      have hside : Between a p q ∨ Between e b q := by
        omega
      rcases hside with hq | hq
      · exact ⟨pageRegion a p protect, by simp [mem_remnants, hq.1.trans_lt hq.2],
          (pageRegion_holds hap).2 hq⟩
      · exact ⟨pageRegion e b protect, by simp [mem_remnants, hq.1.trans_lt hq.2],
          (pageRegion_holds heb).2 hq⟩
    · exact ⟨r, by simp [hr], hh⟩

/-- Decommit and carve together. -/
theorem releaseRange (base size : Nat) (poolOk : Bool) :
    Kept s (s.releaseRange before (pageRegion a b protect) after base size (p * pageSize)
      (e * pageSize) poolOk).vm := by
  have hkept := h.decommitRange (show 0x10 ≤ p by omega) (show e ≤ 0x7FFE0 by omega)
  obtain ⟨hch, hzero⟩ := h.frames.decommitRange (show 0x10 ≤ p by omega)
    (show e ≤ 0x7FFE0 by omega)
  have hcarve := hkept.inv.carve (hch.regions.trans hl) ha hap hpe heb hb hzero poolOk
  unfold Vm.releaseRange
  obtain ⟨t, status, ht⟩ : ∃ t status,
    (s.nxvDecommitRange (p * pageSize) (e * pageSize)).carve before (pageRegion a b protect)
      after (p * pageSize) (e * pageSize) poolOk = (t, status) := ⟨_, _, rfl⟩
  rw [ht] at hcarve ⊢
  cases status <;> exact hkept.trans hcarve

end Carve

/-- `NxVmFreeVirtualMemory`, when `base + size` and its rounding do not wrap. -/
theorem free (h : VmInv s) {baseAddress regionSize : Option Nat} {freeType : Nat}
    {poolOk : Bool}
    (hin : ∀ base size, baseAddress = some base → regionSize = some size →
      base + size ≤ 2 ^ 32 - pageSize) :
    Kept s (s.nxVmFreeVirtualMemory baseAddress regionSize freeType poolOk).vm := by
  have hps : pageSize = 4096 := rfl
  unfold Vm.nxVmFreeVirtualMemory
  split
  · rename_i base size
    have hwrap := hin base size rfl rfl
    split
    · exact Kept.refl h
    cases hfind : nxvFindRegion s.regions base with
    | none => exact Kept.refl h
    | some found =>
      obtain ⟨before, r, after⟩ := found
      obtain ⟨hl, hholds⟩ := h.regions.findRegion_some hfind
      have hr : TitleRegion r := h.regions.title r (by rw [hl]; simp)
      obtain ⟨a, b, hr', hlim, ha, hab, hb⟩ := hr.pages
      have hbase : r.base = a * pageSize := by rw [hr']; rfl
      obtain ⟨hlo, hhi⟩ := hholds
      rw [← hr.limit_eq, hlim] at hhi
      rw [hbase] at hlo
      have hdown : roundDown base pageSize = base / 4096 * pageSize := rfl
      obtain ⟨e, he⟩ := roundUp_dvd (wadd base size) pageSize
      have hup := le_roundUp (by decide)
        (show base + size + (pageSize - 1) < 2 ^ 32 by omega)
      rw [wadd_of_lt (by omega)] at he
      rw [Nat.mul_comm] at he
      rw [he] at hup
      rw [hps] at hlo hhi hup
      simp only
      split
      · -- MEM_RELEASE
        unfold Vm.release
        simp only [hbase, hlim, hdown, wadd_of_lt (show base + size < 2 ^ 32 by omega), he]
        rw [hr'] at hl ⊢
        split
        · split
          · exact Kept.refl h
          · exact h.releaseRange hl ha (Nat.le_refl _) hab (Nat.le_refl _) hb _ _ _
        · split
          · exact Kept.refl h
          · rename_i hsize hle
            rw [page_lt] at hle
            exact h.releaseRange hl ha (by omega) (by omega) (by omega) hb _ _ _
      · -- MEM_DECOMMIT
        unfold Vm.decommit
        simp only [hlim, hdown, wadd_of_lt (show base + size < 2 ^ 32 by omega), he]
        by_cases h0 : size = 0
        · rw [if_pos h0, if_neg (Nat.lt_irrefl _)]
          exact h.decommitRange (by omega) hb
        · split_ifs with hle
          · exact Kept.refl h
          · rw [page_lt] at hle
            exact h.decommitRange (by omega) (by omega)
  · exact Kept.refl h

/-- `NxVmProtectVirtualMemory`, for every argument: its checks confine the
range to one region. -/
theorem protect (h : VmInv s) (baseAddress regionSize : Option Nat) (newProtect : Nat)
    (oldProtect : Bool) :
    Kept s (s.nxVmProtectVirtualMemory baseAddress regionSize newProtect oldProtect).1.vm := by
  rcases h.regions.protect_cases rfl with ⟨-, hsame⟩ |
    ⟨base, size, bits, e, -, -, hprot, -, hlo, -, hhi, hall, -, hvm, -⟩
  · rw [hsame]
    exact Kept.refl h
  have hne : ∀ q, Between (base / pageSize) e q → s.mem.pt q ≠ 0 := by
    intro q hq
    have hentry := (hall q hq).2
    rwa [Vm.nxvPte, pteIndex_mul] at hentry
  obtain ⟨hch, hclear⟩ := protectLoop_spec (nxvProtectToPte_bits hprot) hhi h.frames hlo rfl hne
  rw [hvm]
  exact h.changed hch (fun q hq hbt _ => h.covered q hq (hne q hbt)) hclear

end VmInv

/-! ## Calls -/

/-- The calls of the manager with their arguments. -/
inductive Call where
  | allocate (baseAddress regionSize : Option Nat) (allocationType pageProtect : Nat)
      (poolOk : Bool)
  | free (baseAddress regionSize : Option Nat) (freeType : Nat) (poolOk : Bool)
  | protect (baseAddress regionSize : Option Nat) (newProtect : Nat) (oldProtect : Bool)
  deriving DecidableEq, Repr

namespace Call

/-- The state after a call. -/
def apply (s : Vm) : Call → Vm
  | allocate baseAddress regionSize allocationType pageProtect poolOk =>
    (s.nxVmAllocateVirtualMemory baseAddress regionSize allocationType pageProtect poolOk).vm
  | free baseAddress regionSize freeType poolOk =>
    (s.nxVmFreeVirtualMemory baseAddress regionSize freeType poolOk).vm
  | protect baseAddress regionSize newProtect oldProtect =>
    (s.nxVmProtectVirtualMemory baseAddress regionSize newProtect oldProtect).1.vm

/-- The address arithmetic of the call does not leave the title range: a size
without a base is at most `0x7FFE0000`, an allocation at a title address ends
at or below it, and the end of a range to free, rounded up, does not wrap. -/
def Confined : Call → Prop
  | allocate baseAddress regionSize _ _ _ =>
    ∀ base size, baseAddress = some base → regionSize = some size →
      (base = 0 → size ≤ nxvHighest) ∧
        (nxvLowest ≤ base → base < nxvHighest → base + size ≤ nxvHighest)
  | free baseAddress regionSize _ _ =>
    ∀ base size, baseAddress = some base → regionSize = some size →
      base + size ≤ 2 ^ 32 - pageSize
  | protect _ _ _ _ => True

/-- The range of the call lies inside the title range.  A `NULL` base, with
which the allocator picks the address itself, asks for a size that can lie
there. -/
def InRange : Call → Prop
  | allocate baseAddress regionSize _ _ _ =>
    ∀ base size, baseAddress = some base → regionSize = some size →
      if base = 0 then size ≤ nxvHighest else nxvLowest ≤ base ∧ base + size ≤ nxvHighest
  | free baseAddress regionSize _ _ =>
    ∀ base size, baseAddress = some base → regionSize = some size →
      nxvLowest ≤ base ∧ base + size ≤ nxvHighest
  | protect baseAddress regionSize _ _ =>
    ∀ base size, baseAddress = some base → regionSize = some size →
      nxvLowest ≤ base ∧ base + size ≤ nxvHighest

theorem InRange.confined {c : Call} (h : c.InRange) : c.Confined := by
  have hmax := nxvHighest_lt
  have hps : pageSize = 4096 := rfl
  cases c with
  | allocate baseAddress regionSize allocationType pageProtect poolOk =>
    intro base size hb hs
    have hin := h base size hb hs
    split_ifs at hin with h0
    · exact ⟨fun _ => hin, fun hl => by omega⟩
    · exact ⟨fun e => absurd e h0, fun _ _ => hin.2⟩
  | free baseAddress regionSize freeType poolOk =>
    intro base size hb hs
    have hin := h base size hb hs
    omega
  | protect baseAddress regionSize newProtect oldProtect => trivial

/-- Allocation and release calls. -/
def AllocOrFree : Call → Prop
  | protect _ _ _ _ => False
  | _ => True

end Call

/-- The state at the first use: nothing reserved or committed, and the page
tables hold no entry for a title address. -/
structure Boot (s : Vm) : Prop where
  regions : s.regions = []
  committed : s.committed = 0
  reserved : s.reserved = 0
  supply : Inv s.mem.supply
  empty : ∀ p, TitlePage p → s.mem.pt p = 0
  table : ∀ p, p < 0x80000 → present (s.mem.pt (0xC0000 + p / 1024)) = false →
    s.mem.pt p = 0

theorem Boot.inv (h : Boot s) : VmInv s where
  regions := by rw [h.regions]; exact RegionsOk.nil
  reserved := by rw [h.regions, h.reserved, totalSize_nil]
  frames :=
    { supply := h.supply
      owned := fun p hp hne => absurd (h.empty p hp) hne
      entry_lt := fun p hp => by rw [h.empty p hp]; decide
      table := h.table
      count := by
        have hnone : committedPages s.mem.pt = ∅ := by
          ext p
          rw [mem_committedPages]
          simp only [Finset.notMem_empty, iff_false]
          exact fun hp => hp.2 (h.empty p hp.1)
        rw [hnone, h.committed]
        rfl }
  covered := fun q hq hne => absurd (h.empty q hq) hne
  unmarked := fun q hq => by rw [h.empty q hq]; rfl

/-- Every confined call keeps the invariant. -/
theorem VmInv.call (h : VmInv s) {c : Call} (hc : c.Confined) :
    Kept s (c.apply s) := by
  cases c with
  | allocate baseAddress regionSize allocationType pageProtect poolOk => exact h.allocate hc
  | free baseAddress regionSize freeType poolOk => exact h.free hc
  | protect baseAddress regionSize newProtect oldProtect => exact h.protect _ _ _ _

/-- One call whose arguments meet `P`. -/
def CallStep (P : Call → Prop) (s : Vm) (c : Call) (t : Vm) : Prop := P c ∧ t = c.apply s

/-- What every history of confined calls keeps. -/
theorem confined_history {s₀ s : Vm} (h₀ : Boot s₀) {P : Call → Prop}
    (hP : ∀ c, P c → c.Confined) (h : Reachable (· = s₀) (CallStep P) s) : Kept s₀ s := by
  refine Reachable.invariant ?_ ?_ h
  · rintro _ rfl
    exact Kept.refl h₀.inv
  · rintro t c u hkept ⟨hc, rfl⟩
    exact hkept.trans (hkept.inv.call (hP c hc))

/-- Confinement of the title range: in every history of allocate and free calls
that are all confined, the region list stays well formed and no entry for an
address outside the title range changes. -/
theorem title_confined {s₀ s : Vm} (h₀ : Boot s₀)
    (h : Reachable (· = s₀) (CallStep (fun c => c.AllocOrFree ∧ c.Confined)) s) :
    RegionsOk s.regions ∧ ∀ i, ¬TitleEntry i → s.mem.pt i = s₀.mem.pt i := by
  have hkept := confined_history h₀ (fun c hc => hc.2) h
  exact ⟨hkept.inv.regions, hkept.outside⟩

/-- Accounting of the title range after every history of calls inside it. -/
theorem title_accounting {s₀ s : Vm} (h₀ : Boot s₀)
    (h : Reachable (· = s₀) (CallStep Call.InRange) s) :
    s.reserved = totalSize s.regions ∧
      s.committed = pageSize * (committedPages s.mem.pt).card ∧
      (∀ q, TitlePage q → s.mem.pt q ≠ 0 → ∃ r ∈ s.regions, r.Holds (q * pageSize)) ∧
      (∀ p q, TitlePage p → TitlePage q → s.mem.pt p ≠ 0 → s.mem.pt q ≠ 0 →
        frame (s.mem.pt p) = frame (s.mem.pt q) → p = q) ∧
      ∀ q, TitlePage q → fresh (s.mem.pt q) = false := by
  have hinv := (confined_history h₀ (fun _ => Call.InRange.confined) h).inv
  exact ⟨hinv.reserved, hinv.frames.count, hinv.covered,
    fun _ _ hp hq => hinv.frames.frame_inj hp hq, hinv.unmarked⟩

/-! ## A small machine -/

/-- Four pages, returned at boot. -/
def smallSupply : Supply :=
  [Op.giveBack 0x3400, .giveBack 0x3401, .giveBack 0x3402, .giveBack 0x3403].foldl Op.apply
    (Supply.nxkPageSupplyInitialize 0x3FFF true)

theorem smallSupply_reached : Reached 0x3FFF true smallSupply :=
  Reached.ops (.start rfl) _ (by decide)

/-- A machine with these pages and empty page tables. -/
def smallVm : Vm where
  mem := ⟨fun _ => 0, smallSupply⟩
  regions := []
  committed := 0
  reserved := 0

theorem smallVm_boot : Boot smallVm where
  regions := rfl
  committed := rfl
  reserved := rfl
  supply := Inv.reached (by decide) (by decide) smallSupply_reached
  empty := fun _ _ => rfl
  table := fun _ _ _ => rfl

/-- A commit of two pages inside the range. -/
def twoPages : Call :=
  .allocate (some 0x20000) (some 0x1800) (memCommit ||| memReserve) pageReadWrite true

theorem twoPages_inRange : twoPages.InRange := by
  intro base size hb hs
  cases hb
  cases hs
  decide

theorem title_confined_twoPages :
    (twoPages.apply smallVm).regions = [⟨0x20000, 0x2000, pageReadWrite⟩] ∧
      RegionsOk (twoPages.apply smallVm).regions := by
  refine ⟨by decide, ?_⟩
  exact (title_confined smallVm_boot
    (.next twoPages (.start rfl) ⟨⟨trivial, twoPages_inRange.confined⟩, rfl⟩)).1

theorem title_accounting_twoPages :
    (twoPages.apply smallVm).committed = 0x2000 ∧
      (twoPages.apply smallVm).committed =
        pageSize * (committedPages (twoPages.apply smallVm).mem.pt).card := by
  refine ⟨by decide, ?_⟩
  exact (title_accounting smallVm_boot
    (.next twoPages (.start rfl) ⟨twoPages_inRange, rfl⟩)).2.1

/-- A commit of two pages, the second of which lies at `0x7FFE0000`. -/
def overrun : Call := .allocate (some 0x7FFDF000) (some 0x2000) memCommit pageReadWrite true

/-- The call creates a region that ends past the title range, and an entry for
an address outside it. -/
theorem overrun_leaves_range :
    Boot smallVm ∧ overrun.AllocOrFree ∧
      (overrun.apply smallVm).regions = [⟨0x7FFD0000, 0x11000, pageReadWrite⟩] ∧
      ¬RegionsOk (overrun.apply smallVm).regions ∧
      ¬TitleEntry 0x7FFE0 ∧
      (overrun.apply smallVm).mem.pt 0x7FFE0 ≠ smallVm.mem.pt 0x7FFE0 := by
  have hreg : (overrun.apply smallVm).regions = [⟨0x7FFD0000, 0x11000, pageReadWrite⟩] := by
    decide
  refine ⟨smallVm_boot, trivial, hreg, ?_, ?_, by decide⟩
  · intro hok
    exact absurd (hok.title _ List.mem_cons_self).high (by decide)
  · unfold TitleEntry TitlePage
    decide

end Roswell.Ports.TitleVm
