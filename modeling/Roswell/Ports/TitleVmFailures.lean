import Mathlib
import Roswell.Ports.TitleVmProtect

/-!
# Failed allocations and releases

What the title virtual-memory manager leaves behind when a call fails.

A release from the middle of a region decommits its pages before it asks the
pool for the second region record.  When the pool has none, the accounting is
undone and the call is refused, but the pages are gone: such a call is clean
exactly when there was no committed page in the range.
-/

namespace Roswell.Ports.TitleVm

open Verified.Word PageSupply PageTables Function

/-! ## What a decommit changes -/

theorem dropPage_pt (s : Vm) (va : Nat) :
    (s.dropPage va).mem.pt = update s.mem.pt (pteIndex va) 0 := rfl

/-- A decommit turns entries to zero and touches no region record. -/
theorem decommitLoop_zeroes (s : Vm) (stop va n : Nat) :
    (decommitLoop stop n s va).regions = s.regions ∧
      (decommitLoop stop n s va).reserved = s.reserved ∧
      ∀ i, s.mem.pt i = 0 → (decommitLoop stop n s va).mem.pt i = 0 := by
  induction n generalizing s va with
  | zero => exact ⟨rfl, rfl, fun _ h0 => h0⟩
  | succ n ih =>
    rw [decommitLoop]
    split
    · next hlt =>
      by_cases hpde : present (s.nxvPde va) = false
      · rw [if_pos hpde]
        exact ih _ _
      rw [if_neg hpde]
      split_ifs with hne
      · obtain ⟨hreg, hres, hzero⟩ := ih (s.dropPage va) (wadd va pageSize)
        refine ⟨hreg, hres, fun i h0 => hzero i ?_⟩
        rw [dropPage_pt]
        by_cases hi : i = pteIndex va
        · rw [hi, update_self]
        · rw [update_of_ne hi]
          exact h0
      · exact ih _ _
    · next hlt => exact ⟨rfl, rfl, fun _ h0 => h0⟩

/-- The decommit loop over `[p, e)` changes nothing exactly when no page of the
range is committed.  The top span has its page table, so skipping a span
without one does not wrap. -/
theorem decommitLoop_eq_self {s : Vm} (htop : present (s.mem.pt 0xC03FF) = true) {p e n : Nat}
    (he : e < 2 ^ 20) (hn : e - p ≤ n) :
    decommitLoop (e * pageSize) n s (p * pageSize) = s ↔
      ∀ q, Between p e q → ¬s.Committed (q * pageSize) := by
  induction n generalizing p with
  | zero =>
    refine iff_of_true rfl ?_
    intro q hq
    omega
  | succ n ih =>
    rw [decommitLoop]
    by_cases hlt : p < e
    · rw [if_pos (page_lt.2 hlt)]
      -- The rest of the walk, when this page is passed over.
      have hpass : ∀ p', p < p' → (∀ q, Between p p' q → ¬s.Committed (q * pageSize)) →
          (decommitLoop (e * pageSize) n s (p' * pageSize) = s ↔
            ∀ q, Between p e q → ¬s.Committed (q * pageSize)) := by
        intro p' hp' hnone
        rw [ih (by omega)]
        constructor
        · intro hall q hq
          by_cases hq' : q < p'
          · exact hnone q ⟨hq.1, hq'⟩
          · exact hall q ⟨by omega, hq.2⟩
        · exact fun hall q hq => hall q (by omega)
      by_cases hpde : present (s.nxvPde (p * pageSize)) = false
      · have hspan : p / 1024 ≠ 0x3FF := by
          intro hspan
          rw [Vm.nxvPde, pdeIndex_mul, hspan, htop] at hpde
          contradiction
        rw [if_pos hpde]
        simp only
        rw [skip_span (by omega)]
        refine hpass _ (by omega) ?_
        intro q hq hcomm
        have hsame : q / 1024 = p / 1024 := by omega
        have hq' := hcomm.1
        rw [Vm.nxvPde, pdeIndex_mul, hsame, ← pdeIndex_mul, ← Vm.nxvPde, hpde] at hq'
        contradiction
      · rw [if_neg hpde, succ_page (by omega)]
        by_cases hne : s.nxvPte (p * pageSize) ≠ 0
        · -- The entry of the first committed page is gone for good.
          rw [if_pos hne]
          have hcomm : s.Committed (p * pageSize) := ⟨by simpa using hpde, hne⟩
          refine iff_of_false ?_ (fun hall => hall p ⟨Nat.le_refl _, hlt⟩ hcomm)
          intro hself
          obtain ⟨-, -, hzero⟩ := decommitLoop_zeroes (s.dropPage (p * pageSize))
            (e * pageSize) ((p + 1) * pageSize) n
          have h0 := hzero p (by rw [dropPage_pt, pteIndex_mul, update_self])
          rw [hself] at h0
          rw [Vm.nxvPte, pteIndex_mul] at hne
          exact hne h0
        · rw [if_neg hne]
          refine hpass (p + 1) (by omega) ?_
          intro q hq hcomm
          have hqp : q = p := by omega
          rw [hqp] at hcomm
          exact hne hcomm.2
    · rw [if_neg (fun hc => hlt (page_lt.1 hc))]
      refine iff_of_true rfl ?_
      intro q hq
      omega

/-! ## A refused release -/

/-- `MEM_RELEASE` and not `MEM_DECOMMIT`, as the flags are tested. -/
def ReleaseOnly (freeType : Nat) : Prop :=
  ¬(freeType &&& (memRelease ||| memDecommit) = 0 ∨
      freeType &&& (memRelease ||| memDecommit) = memRelease ||| memDecommit) ∧
    flagOn freeType memRelease = true

/-- The rounded range lies inside the region and touches neither of its ends. -/
def MiddleOf (region : Region) (base size : Nat) : Prop :=
  size ≠ 0 ∧ roundDown base pageSize ≠ region.base ∧
    roundUp (wadd base size) pageSize < region.limit

/-- When a release splits a region and the pool has no record for the second
part, no page of the range is committed. -/
def FreeSpares (s : Vm) (baseAddress regionSize : Option Nat) (freeType : Nat)
    (poolOk : Bool) : Prop :=
  ∀ base size before region after, baseAddress = some base → regionSize = some size →
    ReleaseOnly freeType → nxvFindRegion s.regions base = some (before, region, after) →
    MiddleOf region base size → poolOk = false →
    ∀ q, Between (base / pageSize) (roundUp (wadd base size) pageSize / pageSize) q →
      ¬s.Committed (q * pageSize)

theorem wadd_wsub {a : Nat} (ha : a < 2 ^ 32) (b : Nat) : wadd (wsub a b) b = a := by
  rw [wadd_eq, wsub_eq]
  omega

/-- A release fails only when it splits the region without a record for the
second part. -/
theorem carve_fails (s : Vm) (before : List Region) (region : Region) (after : List Region)
    (start stop : Nat) (poolOk : Bool) :
    ((s.carve before region after start stop poolOk).2 = .success ↔
      ¬(start ≠ region.base ∧ stop ≠ region.limit ∧ poolOk = false)) ∧
    (start ≠ region.base ∧ stop ≠ region.limit ∧ poolOk = false →
      (s.carve before region after start stop poolOk).1 =
        { s with reserved := wadd (wsub s.reserved (wsub stop start)) (wsub stop start) }) := by
  unfold Vm.carve
  by_cases hbase : start = region.base
  · simp only [hbase, true_and]
    by_cases hlim : stop = region.limit
    · simp [hlim]
    · simp [hlim]
  · by_cases hlim : stop = region.limit
    · simp [hbase, hlim]
    · cases poolOk with
      | false => simp [hbase, hlim]
      | true => simp [hbase, hlim]

/-- `releaseRange` over whole pages: a failed one changes nothing exactly when no
page of the range is committed. -/
theorem releaseRange_clean {s : Vm} (hres : s.reserved < 2 ^ 32)
    (htop : present (s.mem.pt 0xC03FF) = true) (before : List Region) (region : Region)
    (after : List Region) (base size : Nat) {p e : Nat} (he : e < 2 ^ 20) (poolOk : Bool) :
    ((s.releaseRange before region after base size (p * pageSize) (e * pageSize)
          poolOk).status ≠ .success →
        (s.releaseRange before region after base size (p * pageSize) (e * pageSize)
          poolOk).vm = s) ↔
      (p * pageSize ≠ region.base ∧ e * pageSize ≠ region.limit ∧ poolOk = false →
        ∀ q, Between p e q → ¬s.Committed (q * pageSize)) := by
  obtain ⟨d, hd⟩ : ∃ d, s.nxvDecommitRange (p * pageSize) (e * pageSize) = d := ⟨_, rfl⟩
  have hself : d = s ↔ ∀ q, Between p e q → ¬s.Committed (q * pageSize) := by
    rw [← hd, Vm.nxvDecommitRange, pageSpan_mul]
    exact decommitLoop_eq_self htop he (Nat.le_refl _)
  have hreserved : d.reserved = s.reserved := by
    rw [← hd]
    exact (decommitLoop_zeroes s _ _ _).2.1
  obtain ⟨hok, hfail⟩ := carve_fails d before region after (p * pageSize) (e * pageSize) poolOk
  unfold Vm.releaseRange
  rw [hd]
  obtain ⟨t, status, ht⟩ : ∃ t status,
    d.carve before region after (p * pageSize) (e * pageSize) poolOk = (t, status) :=
    ⟨_, _, rfl⟩
  rw [ht] at hok hfail ⊢
  by_cases hsplit : p * pageSize ≠ region.base ∧ e * pageSize ≠ region.limit ∧ poolOk = false
  · have ht' : t = d := by
      refine (hfail hsplit).trans ?_
      rw [hreserved, wadd_wsub hres, ← hreserved]
    have hne : status ≠ .success := fun hs => hok.1 hs hsplit
    subst ht'
    rw [← hself]
    cases status with
    | success => exact absurd rfl hne
    | _ => exact ⟨fun h _ => h hne, fun h _ => h hsplit⟩
  · have hs : status = .success := hok.2 hsplit
    subst hs
    exact iff_of_true (absurd rfl) (fun h => absurd h hsplit)

/-- A failed free leaves the manager as it was exactly when it was not the split
of a region with committed pages in the range and no record for the second
part. -/
theorem free_fails_cleanly {s : Vm} (hres : s.reserved < 2 ^ 32)
    (htop : present (s.mem.pt 0xC03FF) = true) (baseAddress regionSize : Option Nat)
    (freeType : Nat) (poolOk : Bool) :
    ((s.nxVmFreeVirtualMemory baseAddress regionSize freeType poolOk).status ≠ .success →
        (s.nxVmFreeVirtualMemory baseAddress regionSize freeType poolOk).vm = s) ↔
      FreeSpares s baseAddress regionSize freeType poolOk := by
  cases baseAddress with
  | none => exact iff_of_true (fun _ => rfl) (fun _ _ _ _ _ hb => by contradiction)
  | some base =>
  cases regionSize with
  | none => exact iff_of_true (fun _ => rfl) (fun _ _ _ _ _ _ hs => by contradiction)
  | some size =>
  unfold Vm.nxVmFreeVirtualMemory
  simp only
  by_cases hflags : freeType &&& (memRelease ||| memDecommit) = 0 ∨
      freeType &&& (memRelease ||| memDecommit) = memRelease ||| memDecommit
  · rw [if_pos hflags]
    exact iff_of_true (fun _ => rfl) (fun _ _ _ _ _ _ _ hrel => absurd hflags hrel.1)
  rw [if_neg hflags]
  cases hfind : nxvFindRegion s.regions base with
  | none =>
    refine iff_of_true (fun _ => rfl) ?_
    rintro _ _ _ _ _ ⟨⟩ ⟨⟩ - hf
    rw [hfind] at hf
    contradiction
  | some found =>
    obtain ⟨before, region, after⟩ := found
    -- What is asked of the call, with its region found.
    have hspares : FreeSpares s (some base) (some size) freeType poolOk ↔
        (flagOn freeType memRelease = true → MiddleOf region base size → poolOk = false →
          ∀ q, Between (base / pageSize)
            (roundUp (wadd base size) pageSize / pageSize) q →
              ¬s.Committed (q * pageSize)) := by
      constructor
      · intro h hrel
        exact h base size before region after rfl rfl ⟨hflags, hrel⟩ hfind
      · rintro h _ _ _ _ _ ⟨⟩ ⟨⟩ hrel hf
        rw [hfind] at hf
        cases hf
        exact h hrel.2
    rw [hspares]
    simp only
    split_ifs with hrel
    · unfold Vm.release
      split
      · next h0 =>
        refine iff_of_true ?_ (fun _ hmid => absurd h0 hmid.1)
        split_ifs with hbase
        · exact fun _ => rfl
        unfold Vm.releaseRange
        have hok := (carve_fails (s.nxvDecommitRange region.base region.limit) before
          region after region.base region.limit poolOk).1.2 (fun h => h.1 rfl)
        obtain ⟨t, status, ht⟩ : ∃ t status,
          (s.nxvDecommitRange region.base region.limit).carve before region after
            region.base region.limit poolOk = (t, status) := ⟨_, _, rfl⟩
        rw [ht] at hok ⊢
        cases hok
        exact fun h => absurd rfl h
      · next h0 =>
        simp only
        obtain ⟨hstop, hlt⟩ := roundUp_page (wadd base size)
        have hstart : roundDown base pageSize = base / pageSize * pageSize := rfl
        split_ifs with hout
        · exact iff_of_true (fun _ => rfl)
            (fun _ hmid => absurd hmid.2.2 (Nat.lt_asymm hout))
        rw [hstart]
        have hclean := releaseRange_clean hres htop before region after base size
          (p := base / pageSize) hlt poolOk
        rw [← hstop] at hclean
        rw [hclean]
        constructor
        · intro h _ hmid hpool
          exact h ⟨hmid.2.1, Nat.ne_of_lt hmid.2.2, hpool⟩
        · rintro h ⟨hb, hl, hpool⟩
          exact h hrel ⟨h0, hb, by omega⟩ hpool
    · refine iff_of_true ?_ (fun h => absurd h hrel)
      unfold Vm.decommit
      by_cases hout : region.limit <
          if size = 0 then region.limit else roundUp (wadd base size) pageSize
      · rw [if_pos hout]
        exact fun _ => rfl
      · rw [if_neg hout]
        exact absurd rfl

/-- The small machine with a page table for the top of the address space, after
a commit of three pages. -/
def threePagesVm : Vm :=
  (Call.allocate (some 0x20000) (some 0x3000) (memCommit ||| memReserve) pageReadWrite true).apply
    { smallVm with
      mem :=
        { smallVm.mem with
          pt := update smallVm.mem.pt 0xC03FF (mkEntry 0x3300 (nxvPteP ||| nxvPteRw)) } }

theorem free_fails_cleanly_threePages :
    (threePagesVm.nxVmFreeVirtualMemory (some 0x21000) (some 0x4000) memRelease false).status =
        .unableToFreeVm ∧
      (threePagesVm.nxVmFreeVirtualMemory (some 0x21000) (some 0x4000) memRelease false).vm =
        threePagesVm := by
  have hfail : (threePagesVm.nxVmFreeVirtualMemory (some 0x21000) (some 0x4000) memRelease
      false).status = .unableToFreeVm := by decide +kernel
  refine ⟨hfail, (free_fails_cleanly (by decide +kernel) (by decide +kernel) _ _ _ _).2 ?_
    (by rw [hfail]; decide)⟩
  rintro _ _ before region after ⟨⟩ ⟨⟩ - hfind hmid
  have hregions : nxvFindRegion threePagesVm.regions 0x21000 =
      some ([], ⟨0x20000, 0x3000, pageReadWrite⟩, []) := by decide +kernel
  cases hfind
  exact absurd hmid.2.2 (by decide)

/-- Without a record for the tail, releasing the middle page is refused and the
page is gone. -/
theorem refused_release_loses_page :
    (threePagesVm.nxVmFreeVirtualMemory (some 0x21000) (some 0x1000) memRelease false).status =
        .insufficientResources ∧
      threePagesVm.committed = 0x3000 ∧ threePagesVm.mem.pt 0x21 ≠ 0 ∧
      (threePagesVm.nxVmFreeVirtualMemory (some 0x21000) (some 0x1000) memRelease
        false).vm.committed = 0x2000 ∧
      (threePagesVm.nxVmFreeVirtualMemory (some 0x21000) (some 0x1000) memRelease
        false).vm.mem.pt 0x21 = 0 := by
  refine ⟨?_, ?_, ?_, ?_, ?_⟩ <;> decide +kernel

end Roswell.Ports.TitleVm
