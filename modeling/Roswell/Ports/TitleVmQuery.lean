import Roswell.Ports.TitleVmRuns

/-!
# Querying title virtual memory

`NxVmQueryVirtualMemory` answers with the run of pages that starts at the
address and shares its state and protection.  Free space ends at the next
region; inside a region the run is found by reading entries until one decodes
to another protection.  The page tables are read as they are: nothing is
assumed about them here, only that the region list is well formed.
-/

namespace Roswell.Ports.TitleVm

open Verified.Word PageTables

def memFree : Nat := 0x10000
def memPrivate : Nat := 0x20000

/-- `MEMORY_BASIC_INFORMATION`. -/
structure MemoryBasicInformation where
  baseAddress : Nat
  allocationBase : Nat
  allocationProtect : Nat
  regionSize : Nat
  state : Nat
  protect : Nat
  type : Nat
  deriving DecidableEq, Repr

/-- `(NXV_PDE(Va) & NXV_PTE_P) ? NxvPteToProtect(NXV_PTE(Va)) : 0`. -/
def Vm.pageProtect (s : Vm) (va : Nat) : Nat :=
  if present (s.nxvPde va) then nxvPteToProtect (s.nxvPte va) else 0

def Vm.nxVmQueryAddressProtect (s : Vm) (address : Nat) : Nat :=
  s.pageProtect (roundDown address pageSize)

/-- The base of the first region above `va`, or the top of the title range. -/
def freeLimit : List Region → Nat → Nat
  | [], _ => nxvHighest
  | r :: rs, va => if va < r.base then r.base else freeLimit rs va

/-- The run loop: the first page at or above `run` that decodes to another
protection, or `limit`. -/
def protectRun (s : Vm) (protect limit : Nat) : Nat → Nat → Nat
  | 0, run => run
  | n + 1, run =>
    if run < limit then
      if s.pageProtect run ≠ protect then run
      else protectRun s protect limit n (wadd run pageSize)
    else run

/-- `mbiOut` says whether the output pointer is not `NULL`. -/
def Vm.nxVmQueryVirtualMemory (s : Vm) (address : Nat) (mbiOut : Bool) :
    Status × Option MemoryBasicInformation :=
  if mbiOut = false then (.invalidParameter, none)
  else
    let va := roundDown address pageSize
    if nxvHighest ≤ va then (.invalidParameter, none)
    else
      match nxvFindRegion s.regions va with
      | none =>
        (.success, some
          { baseAddress := va
            allocationBase := 0
            allocationProtect := 0
            regionSize := wsub (freeLimit s.regions va) va
            state := memFree
            protect := pageNoAccess
            type := 0 })
      | some (_, region, _) =>
        let protect := s.pageProtect va
        let start := wadd va pageSize
        let run := protectRun s protect region.limit (pageSpan start region.limit) start
        (.success, some
          { baseAddress := va
            allocationBase := region.base
            allocationProtect := region.allocProtect
            regionSize := wsub run va
            state := if protect ≠ 0 then memCommit else memReserve
            protect := protect
            type := memPrivate })

/-! ## What an answer should be -/

/-- The pages of an answered range. -/
def MemoryBasicInformation.Covers (m : MemoryBasicInformation) (va : Nat) : Prop :=
  pageSize ∣ va ∧ m.baseAddress ≤ va ∧ va < m.baseAddress + m.regionSize

/-- A free range: no page of it lies in a region, and it ends at a region or at
the top. -/
structure FreeAnswer (s : Vm) (m : MemoryBasicInformation) : Prop where
  state : m.state = memFree
  free : ∀ va, m.Covers va → ∀ r ∈ s.regions, ¬r.Holds va
  maximal : m.baseAddress + m.regionSize = nxvHighest ∨
    ∃ r ∈ s.regions, r.base = m.baseAddress + m.regionSize

/-- A range inside the region `r`: all its pages are reserved, or all are
committed with one protection, and it ends with the region or at a page that
differs. -/
structure RegionAnswer (s : Vm) (m : MemoryBasicInformation) (r : Region) : Prop where
  allocation : m.allocationBase = r.base ∧ m.allocationProtect = r.allocProtect
  held : ∀ va, m.Covers va → r.Holds va
  uniform : ∀ va, m.Covers va → s.pageProtect va = m.protect
  state : (m.state = memReserve ∧ ∀ va, m.Covers va → ¬s.Committed va) ∨
    (m.state = memCommit ∧ ∀ va, m.Covers va → s.Committed va)
  maximal : m.baseAddress + m.regionSize = r.base + r.size ∨
    s.pageProtect (m.baseAddress + m.regionSize) ≠ m.protect

/-- The answer for `va`. -/
structure Exact (s : Vm) (va : Nat) (m : MemoryBasicInformation) : Prop where
  base : m.baseAddress = va
  progress : 0 < m.regionSize
  pages : pageSize ∣ m.regionSize
  inside : va + m.regionSize ≤ nxvHighest
  answer : FreeAnswer s m ∨ ∃ r ∈ s.regions, RegionAnswer s m r

/-- The answers of calls that each start at the end of the one before, from `va`
to the top of the title range. -/
def Tiles (s : Vm) : Nat → List MemoryBasicInformation → Prop
  | va, [] => va = nxvHighest
  | va, m :: ms =>
    s.nxVmQueryVirtualMemory va true = (.success, some m) ∧ Exact s va m ∧
      Tiles s (va + m.regionSize) ms

/-! ## Decoding -/

/-- Only the empty entry decodes to no protection. -/
theorem nxvPteToProtect_eq_zero {pte : Nat} : nxvPteToProtect pte = 0 ↔ pte = 0 := by
  constructor
  · intro h
    by_contra hne
    unfold nxvPteToProtect at h
    rw [if_neg hne] at h
    split at h
    · exact absurd h (by decide)
    · rw [Nat.or_eq_zero_iff, Nat.or_eq_zero_iff] at h
      have hkind := h.1.1
      split at hkind
      · exact absurd hkind (by decide)
      · exact absurd hkind (by decide)
  · rintro rfl
    rfl

theorem pageProtect_eq_zero {s : Vm} {va : Nat} : s.pageProtect va = 0 ↔ ¬s.Committed va := by
  unfold Vm.pageProtect Vm.Committed
  split_ifs with hp
  · rw [nxvPteToProtect_eq_zero]
    simp [hp]
  · simp [hp]

/-! ## The two kinds of answer -/

/-- Free space ends at the next region. -/
theorem RegionsOk.freeLimit {l : List Region} (h : RegionsOk l) {va : Nat}
    (hva : va < nxvHighest) (hnone : ∀ r ∈ l, ¬r.Holds va) :
    va < freeLimit l va ∧ freeLimit l va ≤ nxvHighest ∧ pageSize ∣ freeLimit l va ∧
      (∀ a, va ≤ a → a < freeLimit l va → ∀ r ∈ l, ¬r.Holds a) ∧
      (freeLimit l va = nxvHighest ∨ ∃ r ∈ l, r.base = freeLimit l va) := by
  induction l with
  | nil => exact ⟨hva, Nat.le_refl _, show pageSize ∣ nxvHighest by decide, by simp, .inl rfl⟩
  | cons r l ih =>
    have hr := h.title r List.mem_cons_self
    have hhigh := hr.high
    have hnot := hnone r List.mem_cons_self
    rw [TitleVm.freeLimit]
    split_ifs with hlt
    · refine ⟨hlt, by omega, hr.base_aligned, ?_, .inr ⟨r, List.mem_cons_self, rfl⟩⟩
      intro a _ ha x hx hh
      have hh1 := hh.1
      rcases List.mem_cons.1 hx with rfl | hx
      · omega
      · have hb : r.base + r.size ≤ x.base := h.head_before x hx
        omega
    · obtain ⟨h1, h2, h3, h4, h5⟩ := ih h.tail (fun x hx => hnone x (List.mem_cons_of_mem _ hx))
      refine ⟨h1, h2, h3, ?_, ?_⟩
      · intro a hva ha x hx hh
        rcases List.mem_cons.1 hx with rfl | hx
        · exact hnot ⟨by omega, by have := hh.2; omega⟩
        · exact h4 a hva ha x hx hh
      · exact h5.imp id (fun ⟨x, hx, he⟩ => ⟨x, List.mem_cons_of_mem _ hx, he⟩)

/-- The run loop stops at the first page that differs, or at the limit. -/
theorem protectRun_spec (s : Vm) (protect : Nat) {p b n : Nat} (hb : b ≤ 0x7FFE0)
    (hpb : p ≤ b) (hn : b - p = n) :
    ∃ p', protectRun s protect (b * pageSize) n (p * pageSize) = p' * pageSize ∧ p ≤ p' ∧
      p' ≤ b ∧ (∀ q, Between p p' q → s.pageProtect (q * pageSize) = protect) ∧
      (p' = b ∨ s.pageProtect (p' * pageSize) ≠ protect) := by
  induction n generalizing p with
  | zero =>
    refine ⟨p, rfl, Nat.le_refl _, hpb, ?_, .inl (by omega)⟩
    intro q hq
    omega
  | succ n ih =>
    have hlt : p < b := by omega
    rw [protectRun, if_pos (page_lt.2 hlt), next_page (by omega)]
    split_ifs with hp
    · refine ⟨p, rfl, Nat.le_refl _, hpb, ?_, .inr hp⟩
      intro q hq
      omega
    · rw [not_not] at hp
      obtain ⟨p', hrun, h1, h2, hsame, hend⟩ := ih (p := p + 1) (by omega) (by omega)
      refine ⟨p', hrun, by omega, h2, ?_, hend⟩
      intro q hq
      by_cases hqp : q = p
      · rw [hqp]
        exact hp
      · exact hsame q (by omega)

/-- Every query of a page of the range is answered exactly. -/
theorem query_exact {s : Vm} (h : RegionsOk s.regions) {p : Nat} (hp : p < 0x7FFE0) :
    ∃ m, s.nxVmQueryVirtualMemory (p * pageSize) true = (.success, some m) ∧
      Exact s (p * pageSize) m := by
  have hps : pageSize = 4096 := rfl
  have htop : nxvHighest = 0x7FFE0 * 4096 := rfl
  have hva : roundDown (p * pageSize) pageSize = p * pageSize :=
    roundDown_of_dvd (Nat.dvd_mul_left _ _)
  have hlt : p * pageSize < nxvHighest := by
    rw [hps, htop]
    omega
  unfold Vm.nxVmQueryVirtualMemory
  simp only [hva, if_neg (Nat.not_le.2 hlt), Bool.true_eq_false, if_false]
  cases hfind : nxvFindRegion s.regions (p * pageSize) with
  | none =>
    obtain ⟨h1, h2, h3, h4, h5⟩ := h.freeLimit hlt (h.findRegion_none hfind)
    obtain ⟨e, he⟩ := h3
    rw [wsub_of_le (by omega) (by omega)]
    refine ⟨_, rfl, ⟨rfl, by simp only; omega, ?_, by simp only; omega, .inl ⟨rfl, ?_, ?_⟩⟩⟩
    · exact Nat.dvd_sub ⟨e, he⟩ (Nat.dvd_mul_left _ _)
    · rintro va ⟨-, hlo, hhi⟩
      simp only at hlo hhi
      exact h4 va hlo (by omega)
    · simp only
      rw [Nat.add_sub_cancel' (by omega)]
      exact h5
  | some found =>
    obtain ⟨before, r, after⟩ := found
    obtain ⟨hl, hholds⟩ := h.findRegion_some hfind
    have hmem : r ∈ s.regions := by rw [hl]; simp
    have hr := h.title r hmem
    obtain ⟨a, b, hr', hlim, ha, hab, hb⟩ := hr.pages
    rw [hr', pageRegion_holds hab.le] at hholds
    simp only [hlim]
    rw [next_page (by omega), pageSpan_mul]
    obtain ⟨p', hrun, h1, h2, hsame, hend⟩ :=
      protectRun_spec s (s.pageProtect (p * pageSize)) hb (show p + 1 ≤ b by omega) rfl
    rw [hrun]
    have hsize : wsub (p' * pageSize) (p * pageSize) = (p' - p) * pageSize := by
      rw [hps, wsub_of_le (by omega) (by omega)]
      omega
    rw [hsize]
    -- The pages of the answer are those from `p` to `p'`.
    have hcover : ∀ va, pageSize ∣ va → p * pageSize ≤ va →
        va < p * pageSize + (p' - p) * pageSize → ∃ q, va = q * pageSize ∧ Between p p' q := by
      rintro va ⟨q, rfl⟩ hlo hhi
      refine ⟨q, Nat.mul_comm _ _, ?_, ?_⟩
      · rw [hps] at hlo
        omega
      · rw [hps] at hhi
        omega
    have huniform : ∀ q, Between p p' q →
        s.pageProtect (q * pageSize) = s.pageProtect (p * pageSize) := by
      intro q hq
      by_cases hqp : q = p
      · rw [hqp]
      · exact hsame q (by omega)
    have hnext : p * pageSize + (p' - p) * pageSize = p' * pageSize := by
      rw [← Nat.add_mul, Nat.add_sub_cancel' (by omega)]
    refine ⟨_, rfl, ⟨rfl, ?_, Nat.dvd_mul_left _ _, ?_, .inr ⟨r, hmem, ⟨⟨rfl, rfl⟩, ?_, ?_, ?_, ?_⟩⟩⟩⟩
    · exact Nat.mul_pos (by omega) (by decide)
    · rw [hnext, hps, htop]
      omega
    · rintro va ⟨hd, hlo, hhi⟩
      obtain ⟨q, rfl, hq⟩ := hcover va hd hlo hhi
      rw [hr', pageRegion_holds hab.le]
      omega
    · rintro va ⟨hd, hlo, hhi⟩
      obtain ⟨q, rfl, hq⟩ := hcover va hd hlo hhi
      exact huniform q hq
    · by_cases h0 : s.pageProtect (p * pageSize) = 0
      · refine .inl ⟨by rw [if_neg (not_not.2 h0)], ?_⟩
        rintro va ⟨hd, hlo, hhi⟩
        obtain ⟨q, rfl, hq⟩ := hcover va hd hlo hhi
        rw [← pageProtect_eq_zero, huniform q hq]
        exact h0
      · refine .inr ⟨by rw [if_pos h0], ?_⟩
        rintro va ⟨hd, hlo, hhi⟩
        obtain ⟨q, rfl, hq⟩ := hcover va hd hlo hhi
        by_contra hc
        rw [← pageProtect_eq_zero, huniform q hq] at hc
        exact h0 hc
    · rw [hnext]
      rcases hend with rfl | hne
      · refine .inl ?_
        rw [← hr.limit_eq, hlim]
      · exact .inr hne

/-! ## Walking the range -/

/-- From every page of the title range, finitely many queries, each at the end
of the answer before, reach the top of the range, and every answer is exact. -/
theorem queries_tile_range {s : Vm} (h : RegionsOk s.regions) {va : Nat} (hal : pageSize ∣ va)
    (hva : va ≤ nxvHighest) : ∃ answers, Tiles s va answers := by
  -- Every answer covers at least one page, so the pages left are the measure.
  induction hleft : nxvHighest - va using Nat.strong_induction_on generalizing va with
  | _ left ih =>
    by_cases hend : va = nxvHighest
    · exact ⟨[], hend⟩
    obtain ⟨p, rfl⟩ := hal
    rw [Nat.mul_comm] at hva hend hleft ⊢
    have hp : p < 0x7FFE0 := by
      have htop : nxvHighest = 0x7FFE0 * 4096 := rfl
      have hps : pageSize = 4096 := rfl
      rw [htop, hps] at hva hend
      omega
    obtain ⟨m, hm, hexact⟩ := query_exact h hp
    have hprogress := hexact.progress
    have hinside := hexact.inside
    obtain ⟨answers, hrest⟩ := ih (nxvHighest - (p * pageSize + m.regionSize)) (by omega)
      (Nat.dvd_add (Nat.dvd_mul_left _ _) hexact.pages) hinside rfl
    exact ⟨m :: answers, hm, hexact, hrest⟩

theorem queries_tile_range_twoPages :
    RegionsOk (twoPages.apply smallVm).regions ∧
      ∃ answers, Tiles (twoPages.apply smallVm) 0x10000 answers := by
  have hok := (VmInv.call smallVm_boot.inv twoPages_inRange.confined).inv.regions
  exact ⟨hok, queries_tile_range hok (by decide) (by decide)⟩

end Roswell.Ports.TitleVm
