import Roswell.Ports.TitleVmQuery

/-!
# Changing the protection of title pages

The two routines that rewrite the low bits of committed entries:
`NxVmProtectVirtualMemory`, which checks its whole range first, and
`NxVmSetAddressProtect` behind `NxMmSetAddressProtect`, which checks only that
its start is a title address.

An entry has no bit for execution, for copy-on-write or for a guard page, so a
protection is kept in its hardware form and read back as such.
-/

namespace Roswell.Ports.TitleVm

open Verified.Word PageTables Function Vm

/-! ## Encoding and decoding -/

/-- What the hardware keeps of a protection: execution adds nothing to reading,
copy-on-write is writing, and a guard is dropped. -/
def hardwareProtect (protect : Nat) : Nat :=
  let kind := protect &&& pageKinds
  (if kind = pageNoAccess then pageNoAccess
    else if kind = pageReadOnly ∨ kind = pageExecute ∨ kind = pageExecuteRead then pageReadOnly
    else pageReadWrite) |||
    (if flagOn protect pageNoCache then pageNoCache else 0) |||
    (if flagOn protect pageWriteCombine then pageWriteCombine else 0)

/-- The protections that are their own hardware form. -/
def plainProtects : List Nat :=
  [pageNoAccess, pageReadOnly, pageReadWrite, pageReadOnly ||| pageNoCache,
    pageReadWrite ||| pageNoCache, pageReadOnly ||| pageWriteCombine,
    pageReadWrite ||| pageWriteCombine]

theorem hardwareProtect_plain : ∀ protect ∈ plainProtects, hardwareProtect protect = protect := by
  decide

/-- A test of the low bits of a rewritten entry sees the new bits only. -/
theorem flagOn_reprotect (e bits : Nat) {mask : Nat} (hmask : 0xFFFFF000 &&& mask = 0) :
    flagOn (frameBits e ||| bits) mask = flagOn bits mask := by
  unfold flagOn frameBits
  rw [Nat.and_or_distrib_right, Nat.and_assoc, hmask, Nat.and_zero, Nat.zero_or]

theorem reprotect_ne_zero (e : Nat) {bits : Nat} (h : bits ≠ 0) : frameBits e ||| bits ≠ 0 := by
  intro h0
  exact h (Nat.or_eq_zero_iff.1 h0).2

/-- The caching bits are those of the two caching flags. -/
theorem flagOn_caching (protect : Nat) :
    flagOn (nxvCaching protect) nxvPtePcd = flagOn protect pageNoCache ∧
      flagOn (nxvCaching protect) nxvPtePwt = flagOn protect pageWriteCombine := by
  unfold nxvCaching
  cases flagOn protect pageNoCache <;> cases flagOn protect pageWriteCombine <;> decide

/-- Decoding a rewritten entry gives the hardware form of the protection it was
rewritten with. -/
theorem nxvPteToProtect_reprotect {protect bits : Nat} (h : nxvProtectToPte protect = some bits)
    (e : Nat) : nxvPteToProtect (frameBits e ||| bits) = hardwareProtect protect := by
  obtain ⟨hpcd, hpwt⟩ := flagOn_caching protect
  have hcases := nxvCaching_cases protect
  unfold nxvPteToProtect hardwareProtect
  rw [flagOn_reprotect e bits (by decide), flagOn_reprotect e bits (by decide),
    flagOn_reprotect e bits (by decide), flagOn_reprotect e bits (by decide), ← hpcd, ← hpwt]
  unfold nxvProtectToPte at h
  generalize nxvCaching protect = caching at h hcases
  generalize protect &&& pageKinds = kind at h
  simp only at h ⊢
  split at h
  · contradiction
  rename_i hboth
  by_cases hno : kind = pageNoAccess
  · rw [if_pos hno] at h ⊢
    split at h
    · contradiction
    · rename_i h0
      rw [not_not] at h0
      cases h
      rw [if_neg (reprotect_ne_zero e (by decide)), h0]
      decide
  · rw [if_neg hno] at h ⊢
    by_cases hread : kind = pageReadOnly ∨ kind = pageExecute ∨ kind = pageExecuteRead
    · rw [if_pos hread] at h ⊢
      cases h
      rcases hcases with rfl | rfl | rfl | rfl
      case inr.inr.inr => exact absurd (by decide) hboth
      all_goals
        rw [if_neg (reprotect_ne_zero e (by decide))]
        decide
    · rw [if_neg hread] at h ⊢
      split at h
      · cases h
        rcases hcases with rfl | rfl | rfl | rfl
        case inr.inr.inr => exact absurd (by decide) hboth
        all_goals
          rw [if_neg (reprotect_ne_zero e (by decide))]
          decide
      · contradiction

/-- The bits of an accepted protection are never zero. -/
theorem nxvProtectToPte_ne_zero {protect bits : Nat} (h : nxvProtectToPte protect = some bits) :
    bits ≠ 0 := by
  rintro rfl
  have hdecode := nxvPteToProtect_reprotect h 0
  have hkind : nxvPteToProtect (frameBits 0 ||| 0) = 0 := rfl
  unfold hardwareProtect at hdecode
  have hzero := (Nat.or_eq_zero_iff.1 (Nat.or_eq_zero_iff.1 hdecode.symm).1).1
  split at hzero
  · exact absurd hzero (by decide)
  · split at hzero
    · exact absurd hzero (by decide)
    · exact absurd hzero (by decide)

/-! ## The update loop -/

/-- Everything a loop over entries leaves alone. -/
structure EntriesOnly (s t : Vm) : Prop where
  supply : t.mem.supply = s.mem.supply
  regions : t.regions = s.regions
  committed : t.committed = s.committed
  reserved : t.reserved = s.reserved

theorem EntriesOnly.refl (s : Vm) : EntriesOnly s s := ⟨rfl, rfl, rfl, rfl⟩

theorem EntriesOnly.trans {s t u : Vm} (h : EntriesOnly s t) (h' : EntriesOnly t u) :
    EntriesOnly s u :=
  ⟨h'.supply.trans h.supply, h'.regions.trans h.regions, h'.committed.trans h.committed,
    h'.reserved.trans h.reserved⟩

theorem EntriesOnly.reprotect (s : Vm) (va bits : Nat) : EntriesOnly s (s.reprotect va bits) :=
  ⟨rfl, rfl, rfl, rfl⟩

/-- The update loop rewrites the entries of its pages and nothing else. -/
theorem protectLoop_entries (s : Vm) (bits : Nat) {p e n : Nat} (he : e < 2 ^ 20) (hn : e - p = n) :
    EntriesOnly s (protectLoop (e * pageSize) bits n s (p * pageSize)) ∧
      (∀ q, Between p e q → (protectLoop (e * pageSize) bits n s (p * pageSize)).mem.pt q =
        frameBits (s.mem.pt q) ||| bits) ∧
      ∀ i, ¬Between p e i →
        (protectLoop (e * pageSize) bits n s (p * pageSize)).mem.pt i = s.mem.pt i := by
  induction n generalizing s p with
  | zero =>
    refine ⟨EntriesOnly.refl s, ?_, fun _ _ => rfl⟩
    intro q hq
    omega
  | succ n ih =>
    have hlt : p < e := by omega
    rw [protectLoop, if_pos (page_lt.2 hlt), succ_page (by omega)]
    obtain ⟨honly, hin, hout⟩ := ih (s.reprotect (p * pageSize) bits) (show e - (p + 1) = n by omega)
    have hpt := reprotect_pt s p bits
    refine ⟨(EntriesOnly.reprotect s _ _).trans honly, ?_, ?_⟩
    · intro q hq
      by_cases hqp : q = p
      · rw [hout q (fun hb => by have := hb.1; omega), hpt, hqp, update_self]
      · rw [hin q (by omega), hpt, update_of_ne hqp]
    · intro i hi
      have hip : i ≠ p := fun hip => hi ⟨by omega, by omega⟩
      have hrest : ¬Between (p + 1) e i := fun hb => hi ⟨by have := hb.1; omega, hb.2⟩
      rw [hout i hrest, hpt, update_of_ne hip]

/-! ## Protect -/

/-- The pages `[p, e)` got the protection, and nothing else changed. -/
structure ProtectedTo (s t : Vm) (p e newProtect : Nat) : Prop where
  only : EntriesOnly s t
  before : ∀ q, Between p e q → s.Committed (q * pageSize)
  committed : ∀ q, Between p e q → t.Committed (q * pageSize)
  protection : ∀ q, Between p e q →
    t.nxVmQueryAddressProtect (q * pageSize) = hardwareProtect newProtect
  frames : ∀ q, Between p e q → frame (t.mem.pt q) = frame (s.mem.pt q)
  other : ∀ i, ¬Between p e i → t.mem.pt i = s.mem.pt i

/-- The page-rounded end of a range, as a page number. -/
def endPage (base size : Nat) : Nat := (base + size + (pageSize - 1)) / pageSize

theorem queryAddressProtect_page (s : Vm) (q : Nat) :
    s.nxVmQueryAddressProtect (q * pageSize) = s.pageProtect (q * pageSize) := by
  rw [nxVmQueryAddressProtect, roundDown_of_dvd (Nat.dvd_mul_left _ _)]

/-- The update loop over title pages, all of them committed. -/
theorem protectLoop_protects {s : Vm} {p e newProtect bits : Nat} (hp : 0x10 ≤ p)
    (he : e ≤ 0x7FFE0) (hword : ∀ q, TitlePage q → s.mem.pt q < 2 ^ 32)
    (hbits : nxvProtectToPte newProtect = some bits)
    (hall : ∀ q, Between p e q → s.Committed (q * pageSize)) :
    ProtectedTo s (protectLoop (e * pageSize) bits (e - p) s (p * pageSize)) p e newProtect := by
  obtain ⟨honly, hin, hout⟩ :=
    protectLoop_entries s bits (by omega) (rfl : e - p = e - p)
  generalize protectLoop (e * pageSize) bits (e - p) s (p * pageSize) = t at honly hin hout ⊢
  have hpte : ∀ (u : Vm) (q : Nat), u.nxvPte (q * pageSize) = u.mem.pt q := by
    intro u q
    rw [nxvPte, pteIndex_mul]
  -- Page directory entries lie above every title entry.
  have hpde : ∀ q, Between p e q → present (t.nxvPde (q * pageSize)) = true := by
    intro q hq
    rw [nxvPde, pdeIndex_mul, hout _ (fun hb => by have := hb.2; omega), ← pdeIndex_mul]
    exact (hall q hq).1
  refine ⟨honly, hall, ?_, ?_, ?_, hout⟩
  · intro q hq
    refine ⟨hpde q hq, ?_⟩
    rw [hpte, hin q hq]
    exact reprotect_ne_zero _ (nxvProtectToPte_ne_zero hbits)
  · intro q hq
    rw [queryAddressProtect_page, pageProtect, if_pos (hpde q hq), hpte, hin q hq]
    exact nxvPteToProtect_reprotect hbits _
  · intro q hq
    rw [hin q hq]
    exact frame_reprotect (hword q ⟨by omega, by omega⟩) (nxvProtectToPte_bits hbits).lt

/-- `NxVmProtectVirtualMemory` fails and changes nothing, or it gives every page
of its page-rounded range the hardware form of the new protection and reports
the protection the first page had. -/
theorem protect_exact {s : Vm} (h : RegionsOk s.regions)
    (hword : ∀ q, TitlePage q → s.mem.pt q < 2 ^ 32) (baseAddress regionSize : Option Nat)
    (newProtect : Nat) (oldProtect : Bool)
    (hrange : ∀ base size, baseAddress = some base → regionSize = some size →
      base + size < 2 ^ 32) :
    ((s.nxVmProtectVirtualMemory baseAddress regionSize newProtect oldProtect).1.status ≠
          .success ∧
        (s.nxVmProtectVirtualMemory baseAddress regionSize newProtect oldProtect).1.vm = s) ∨
      ∃ base size, baseAddress = some base ∧ regionSize = some size ∧
        (s.nxVmProtectVirtualMemory baseAddress regionSize newProtect oldProtect).1.status =
          .success ∧
        base / pageSize < endPage base size ∧
        ProtectedTo s
          (s.nxVmProtectVirtualMemory baseAddress regionSize newProtect oldProtect).1.vm
          (base / pageSize) (endPage base size) newProtect ∧
        (s.nxVmProtectVirtualMemory baseAddress regionSize newProtect oldProtect).2 =
          some (s.nxVmQueryAddressProtect base) ∧
        (newProtect ∈ plainProtects → hardwareProtect newProtect = newProtect) := by
  generalize hout : s.nxVmProtectVirtualMemory baseAddress regionSize newProtect oldProtect = out
  rcases h.protect_cases hout with hfail |
    ⟨base, size, bits, e, rfl, rfl, hprot, hup, hlo, hlt, hhi, hall, hok, hvm, hold⟩
  · exact .inl hfail
  have hsum := hrange base size rfl rfl
  rw [wadd_of_lt hsum] at hup
  -- An end that is above the start was rounded up without wrapping.
  have hfits : base + size + (pageSize - 1) < 2 ^ 32 := by
    have hps : pageSize = 4096 := rfl
    by_contra hbig
    rw [roundUp, wadd_eq, hps] at hup
    omega
  obtain rfl : e = endPage base size := by
    rw [roundUp_eq hfits] at hup
    exact (Nat.mul_left_inj (by decide)).1 hup.symm
  refine .inr ⟨base, size, rfl, rfl, hok, hlt, hvm ▸ protectLoop_protects hlo hhi hword hprot hall,
    hold.trans ?_, hardwareProtect_plain newProtect⟩
  rw [nxVmQueryAddressProtect, show roundDown base pageSize = base / pageSize * pageSize from rfl,
    pageProtect, if_pos (hall _ ⟨Nat.le_refl _, hlt⟩).1]

/-- The machine with its two committed pages. -/
def twoPagesVm : Vm := twoPages.apply smallVm

theorem twoPagesVm_inv : VmInv twoPagesVm :=
  (VmInv.call smallVm_boot.inv twoPages_inRange.confined).inv

theorem protect_exact_twoPages :
    (twoPagesVm.nxVmProtectVirtualMemory (some 0x20800) (some 0x1000) pageReadOnly true).1.status =
        .success ∧
      ProtectedTo twoPagesVm (twoPagesVm.nxVmProtectVirtualMemory (some 0x20800) (some 0x1000)
        pageReadOnly true).1.vm 0x20 0x22 pageReadOnly := by
  have hdone : (twoPagesVm.nxVmProtectVirtualMemory (some 0x20800) (some 0x1000) pageReadOnly
      true).1.status = .success := by decide +kernel
  refine ⟨hdone, ?_⟩
  rcases protect_exact twoPagesVm_inv.regions twoPagesVm_inv.frames.entry_lt (some 0x20800)
    (some 0x1000) pageReadOnly true (by rintro _ _ ⟨⟩ ⟨⟩; decide) with hfail | hok
  · exact absurd hdone hfail.1
  · obtain ⟨base, size, hb, hs, -, -, hprot, -⟩ := hok
    cases hb
    cases hs
    exact hprot

/-- An executable protection is accepted and reads back without execution; and a
size that wraps around is accepted as one page. -/
theorem protect_reads_back_hardware :
    VmInv twoPagesVm ∧
      ((twoPagesVm.nxVmProtectVirtualMemory (some 0x20000) (some 0x1000) pageExecuteReadWrite
          true).1.status = .success ∧
        (twoPagesVm.nxVmProtectVirtualMemory (some 0x20000) (some 0x1000) pageExecuteReadWrite
          true).1.vm.nxVmQueryAddressProtect 0x20000 = pageReadWrite ∧
        pageReadWrite ≠ pageExecuteReadWrite) ∧
      (twoPagesVm.nxVmProtectVirtualMemory (some 0x20800) (some 0xFFFFFFFF) pageReadOnly
          true).1.status = .success ∧
        (twoPagesVm.nxVmProtectVirtualMemory (some 0x20800) (some 0xFFFFFFFF) pageReadOnly
          true).1.vm.nxVmQueryAddressProtect 0x21000 = pageReadWrite := by
  refine ⟨twoPagesVm_inv, ⟨?_, ?_, ?_⟩, ?_, ?_⟩
  · decide +kernel
  · decide +kernel
  · decide
  · decide +kernel
  · decide +kernel

/-! ## Setting the protection by address -/

/-- The loop of `NxVmSetAddressProtect`: pages without a page table, empty
entries and entries that are not valid are passed over. -/
def setProtectLoop (stop bits : Nat) : Nat → Vm → Nat → Vm
  | 0, s, _ => s
  | n + 1, s, va =>
    if va < stop then
      let s₁ :=
        if present (s.nxvPde va) = false then s
        else if s.nxvPte va = 0 then s
        else if present (s.nxvPte va) = false then s
        else s.reprotect va bits
      setProtectLoop stop bits n s₁ (wadd va pageSize)
    else s

def Vm.nxVmSetAddressProtect (s : Vm) (baseAddress numberOfBytes newProtect : Nat) : Vm :=
  let start := roundDown baseAddress pageSize
  let stop := roundUp (wadd baseAddress numberOfBytes) pageSize
  match nxvProtectToPte newProtect with
  | none => s
  | some bits =>
    if bits = nxvPteSwCommit then s
    else setProtectLoop stop bits (pageSpan start stop) s start

def nxVmOwnsAddress (address : Nat) : Bool :=
  decide (nxvLowest ≤ address ∧ address < nxvHighest)

/-- `NxMmSetAddressProtect` with `NXK_MM_VM`: only title addresses are routed to
the manager, the static windows are left alone. -/
def Vm.nxMmSetAddressProtect (s : Vm) (baseAddress numberOfBytes newProtect : Nat) : Vm :=
  if nxVmOwnsAddress baseAddress then
    s.nxVmSetAddressProtect baseAddress numberOfBytes newProtect
  else s

/-- The loop would leave the page's entry as it is. -/
def Vm.Still (s : Vm) (bits q : Nat) : Prop :=
  present (s.nxvPde (q * pageSize)) = true → present (s.mem.pt q) = true →
    frameBits (s.mem.pt q) ||| bits = s.mem.pt q

/-- One round of the loop. -/
theorem setProtectLoop_round (s : Vm) (bits p : Nat) :
    (if present (s.nxvPde (p * pageSize)) = false then s
      else if s.nxvPte (p * pageSize) = 0 then s
      else if present (s.nxvPte (p * pageSize)) = false then s
      else s.reprotect (p * pageSize) bits) =
      if present (s.nxvPde (p * pageSize)) = true ∧ present (s.mem.pt p) = true then
        s.reprotect (p * pageSize) bits
      else s := by
  have hpte : s.nxvPte (p * pageSize) = s.mem.pt p := by rw [nxvPte, pteIndex_mul]
  rw [hpte]
  by_cases hpde : present (s.nxvPde (p * pageSize)) = false
  · rw [if_pos hpde, if_neg (by simp [hpde])]
  rw [if_neg hpde]
  by_cases hvalid : present (s.mem.pt p) = false
  · rw [if_pos hvalid, ite_self, if_neg (by simp [hvalid])]
  · have hne : s.mem.pt p ≠ 0 := by
      rintro h0
      rw [h0] at hvalid
      exact hvalid rfl
    rw [if_neg hne, if_neg hvalid, if_pos (by simp_all)]

/-- The state after one round. -/
def setProtectPage (s : Vm) (bits p : Nat) : Vm :=
  if present (s.nxvPde (p * pageSize)) = true ∧ present (s.mem.pt p) = true then
    s.reprotect (p * pageSize) bits
  else s

theorem setProtectLoop_succ (s : Vm) (bits : Nat) {p e : Nat} (n : Nat) (he : e < 2 ^ 20)
    (hlt : p < e) :
    setProtectLoop (e * pageSize) bits (n + 1) s (p * pageSize) =
      setProtectLoop (e * pageSize) bits n (setProtectPage s bits p) ((p + 1) * pageSize) := by
  rw [setProtectLoop, if_pos (page_lt.2 hlt), succ_page (by omega)]
  simp only [setProtectLoop_round]
  rfl

theorem setProtectPage_other (s : Vm) (bits : Nat) {p i : Nat} (hi : i ≠ p) :
    (setProtectPage s bits p).mem.pt i = s.mem.pt i := by
  unfold setProtectPage
  split
  · rw [reprotect_pt, update_of_ne hi]
  · rfl

theorem setProtectPage_self (s : Vm) (bits p : Nat) :
    (setProtectPage s bits p).mem.pt p = s.mem.pt p ↔ s.Still bits p := by
  unfold setProtectPage Vm.Still
  split_ifs with hc
  · rw [reprotect_pt, update_self]
    exact ⟨fun h _ _ => h, fun h => h hc.1 hc.2⟩
  · exact iff_of_true rfl (fun h1 h2 => absurd ⟨h1, h2⟩ hc)

/-- The loop changes only entries of its own pages. -/
theorem setProtectLoop_outside (s : Vm) (bits : Nat) {p e n i : Nat} (he : e < 2 ^ 20)
    (hn : e - p = n) (hi : ¬Between p e i) :
    (setProtectLoop (e * pageSize) bits n s (p * pageSize)).mem.pt i = s.mem.pt i := by
  induction n generalizing s p with
  | zero => rfl
  | succ n ih =>
    have hip : i ≠ p := fun hip => hi ⟨by omega, by omega⟩
    have hrest : ¬Between (p + 1) e i := fun hb => hi ⟨by have := hb.1; omega, hb.2⟩
    rw [setProtectLoop_succ s bits n he (by omega), ih _ (by omega) hrest,
      setProtectPage_other s bits hip]

/-- Whether a page at or above `b` would change is decided by entries at or above
`b`. -/
theorem still_congr {s t : Vm} {bits b q : Nat} (hb : b ≤ 0xC0000)
    (hsame : ∀ i, b ≤ i → t.mem.pt i = s.mem.pt i) (hq : b ≤ q) :
    t.Still bits q ↔ s.Still bits q := by
  unfold Vm.Still
  rw [nxvPde, nxvPde, pdeIndex_mul, hsame q hq, hsame _ (by omega)]

/-- The entries at or above `b` keep their values exactly when none of the pages
there would change. -/
theorem setProtectLoop_above (s : Vm) (bits : Nat) {b p e n : Nat} (hb : b ≤ 0xC0000)
    (he : e < 2 ^ 20) (hn : e - p = n) :
    (∀ i, b ≤ i →
        (setProtectLoop (e * pageSize) bits n s (p * pageSize)).mem.pt i = s.mem.pt i) ↔
      ∀ q, b ≤ q → Between p e q → s.Still bits q := by
  induction n generalizing s p with
  | zero =>
    refine iff_of_true (fun _ _ => rfl) ?_
    intro q _ hq
    omega
  | succ n ih =>
    rw [setProtectLoop_succ s bits n he (by omega)]
    obtain ⟨s₁, hs₁⟩ : ∃ s₁, setProtectPage s bits p = s₁ := ⟨_, rfl⟩
    have hother : ∀ i, i ≠ p → s₁.mem.pt i = s.mem.pt i := by
      intro i hi
      rw [← hs₁]
      exact setProtectPage_other s bits hi
    have hself : s₁.mem.pt p = s.mem.pt p ↔ s.Still bits p := by
      rw [← hs₁]
      exact setProtectPage_self s bits p
    have hrest := ih (p := p + 1) s₁ (by omega)
    rw [hs₁]
    by_cases hkeep : b ≤ p → s.Still bits p
    · -- This page leaves everything at or above `b` alone.
      have hsame : ∀ i, b ≤ i → s₁.mem.pt i = s.mem.pt i := by
        intro i hi
        by_cases hip : i = p
        · subst hip
          exact hself.2 (hkeep hi)
        · exact hother i hip
      constructor
      · intro hall q hq hbt
        by_cases hqp : q = p
        · subst hqp
          exact hkeep hq
        · refine (still_congr hb hsame hq).1 (hrest.1 ?_ q hq (by omega))
          exact fun i hi => (hall i hi).trans (hsame i hi).symm
      · intro hall i hi
        rw [← hsame i hi]
        refine hrest.2 ?_ i hi
        intro q hq hbt
        exact (still_congr hb hsame hq).2
          (hall q hq (by omega))
    · -- The entry of this page changes, and no later page touches it.
      rw [Classical.not_imp] at hkeep
      refine iff_of_false ?_ ?_
      · intro hall
        refine hkeep.2 (hself.1 ?_)
        rw [← hall p hkeep.1]
        exact (setProtectLoop_outside s₁ bits he (by omega)
          (by omega)).symm
      · intro hall
        exact hkeep.2 (hall p hkeep.1 ⟨Nat.le_refl _, by omega⟩)

/-- The first page past the title range. -/
def titleEnd : Nat := nxvHighest / pageSize

/-- Only entries of title pages in the page-rounded requested range differ. -/
def ProtectConfined (s t : Vm) (baseAddress numberOfBytes : Nat) : Prop :=
  ∀ i, t.mem.pt i ≠ s.mem.pt i →
    TitlePage i ∧ baseAddress / pageSize ≤ i ∧ i < endPage baseAddress numberOfBytes

/-- No page past the title range that the loop goes over would change: the range
ends inside the title range, or the valid pages past it have the bits already. -/
def ProtectSpares (s : Vm) (baseAddress numberOfBytes newProtect : Nat) : Prop :=
  ∀ bits, nxVmOwnsAddress baseAddress = true → nxvProtectToPte newProtect = some bits →
    bits ≠ nxvPteSwCommit →
    ∀ q, titleEnd ≤ q →
      q * pageSize < roundUp (wadd baseAddress numberOfBytes) pageSize → s.Still bits q

/-- `NxMmSetAddressProtect` keeps to the title range exactly when the pages past
it, as far as the requested range goes, would not change. -/
theorem setAddressProtect_confined (s : Vm) (baseAddress newProtect : Nat) {numberOfBytes : Nat}
    (hword : numberOfBytes < 2 ^ 32) :
    ProtectConfined s (s.nxMmSetAddressProtect baseAddress numberOfBytes newProtect) baseAddress
        numberOfBytes ↔
      ProtectSpares s baseAddress numberOfBytes newProtect := by
  have hps : pageSize = 4096 := rfl
  have hrefl : ProtectConfined s s baseAddress numberOfBytes := fun i hi => absurd rfl hi
  unfold nxMmSetAddressProtect
  split_ifs with howns
  · unfold nxVmSetAddressProtect
    cases hprot : nxvProtectToPte newProtect with
    | none =>
      refine iff_of_true hrefl ?_
      intro bits _ hb
      rw [hprot] at hb
      contradiction
    | some bits =>
      simp only
      split_ifs with hsw
      · refine iff_of_true hrefl ?_
        intro bits' _ hb hne
        rw [hprot, Option.some.injEq] at hb
        exact absurd (hb ▸ hsw) hne
      · obtain ⟨hlow, hhigh⟩ := of_decide_eq_true howns
        unfold nxvLowest at hlow
        unfold nxvHighest at hhigh
        have hdown : roundDown baseAddress pageSize = baseAddress / pageSize * pageSize := rfl
        obtain ⟨e, he⟩ : ∃ e, roundUp (wadd baseAddress numberOfBytes) pageSize =
            e * pageSize := by
          obtain ⟨e, he⟩ := roundUp_dvd (wadd baseAddress numberOfBytes) pageSize
          exact ⟨e, he.trans (Nat.mul_comm _ _)⟩
        have hlt : e < 2 ^ 20 := by
          have hw := wadd_lt (wadd baseAddress numberOfBytes) (pageSize - 1)
          have hdm := Nat.div_mul_le_self (wadd (wadd baseAddress numberOfBytes)
            (pageSize - 1)) pageSize
          have hval : e * pageSize = wadd (wadd baseAddress numberOfBytes) (pageSize - 1) /
            pageSize * pageSize := he.symm
          rw [hps] at hval hdm hw
          omega
        -- A range that wraps around ends at most one page after its start.
        have hinside : ∀ i, Between (baseAddress / pageSize) e i →
            i < endPage baseAddress numberOfBytes := by
          intro i hi
          have h1 := hi.1
          have hval : e * pageSize = wadd (wadd baseAddress numberOfBytes) (pageSize - 1) /
            pageSize * pageSize := he.symm
          unfold endPage
          rw [wadd_eq, wadd_eq, hps] at hval
          rw [hps] at h1 ⊢
          omega
        have habove := setProtectLoop_above s bits (b := titleEnd)
          (p := baseAddress / pageSize) (by decide) hlt rfl
        have hout := fun i => setProtectLoop_outside s bits (i := i)
          (p := baseAddress / pageSize) hlt rfl
        rw [hdown, he, pageSpan_mul]
        obtain ⟨t, ht⟩ : ∃ t, setProtectLoop (e * pageSize) bits
          (e - baseAddress / pageSize) s (baseAddress / pageSize * pageSize) = t := ⟨_, rfl⟩
        have hspares : ProtectSpares s baseAddress numberOfBytes newProtect ↔
            ∀ q, titleEnd ≤ q → Between (baseAddress / pageSize) e q → s.Still bits q := by
          have htop : titleEnd = 0x7FFE0 := rfl
          constructor
          · intro hs q hq hbt
            refine hs bits howns hprot hsw q hq ?_
            rw [he, page_lt]
            exact hbt.2
          · intro hs bits' _ hb _ q hq hqlt
            rw [hprot, Option.some.injEq] at hb
            subst hb
            rw [he, page_lt] at hqlt
            exact hs q hq ⟨by rw [hps]; omega, hqlt⟩
        rw [hspares, ← habove]
        constructor
        · intro hconf i hi
          by_contra hne
          have htop : titleEnd = 0x7FFE0 := rfl
          have := (hconf i hne).1.2
          omega
        · intro hsame i hne
          have htop : titleEnd = 0x7FFE0 := rfl
          have hbt : Between (baseAddress / pageSize) e i := by
            by_contra hno
            exact hne (hout i hno)
          have hlo := hbt.1
          refine ⟨⟨by rw [hps] at hlo; omega, ?_⟩, hlo, hinside i hbt⟩
          by_contra hge
          exact hne (hsame i (by omega))
  · exact iff_of_true hrefl (fun _ hown => absurd hown howns)

/-- The small machine with the shared-data page mapped read-only at `0x7FFE0000`,
the first address past the title range. -/
def sharedPageVm : Vm :=
  { smallVm with
    mem :=
      { smallVm.mem with
        pt := fun i =>
          if i = 0xC01FF then mkEntry 0x3300 (nxvPteP ||| nxvPteRw)
          else if i = 0x7FFE0 then mkEntry 0x3301 nxvPteP
          else smallVm.mem.pt i } }

theorem setAddressProtect_confined_sharedPage :
    ProtectConfined sharedPageVm (sharedPageVm.nxMmSetAddressProtect 0x7FFDF000 0x1000
      pageReadWrite) 0x7FFDF000 0x1000 := by
  refine (setAddressProtect_confined sharedPageVm 0x7FFDF000 pageReadWrite
    (by decide)).2 ?_
  intro bits _ _ _ q hq hlt
  have hstop : roundUp (wadd 0x7FFDF000 0x1000) pageSize = titleEnd * pageSize := by decide
  rw [hstop, page_lt] at hlt
  omega

/-- One page more makes the shared-data page writable. -/
theorem setAddressProtect_leaves_range :
    sharedPageVm.mem.pt 0x7FFE0 = mkEntry 0x3301 nxvPteP ∧
      (sharedPageVm.nxMmSetAddressProtect 0x7FFDF000 0x2000 pageReadWrite).mem.pt 0x7FFE0 =
        mkEntry 0x3301 (nxvPteP ||| nxvPteRw) ∧
      ¬ProtectConfined sharedPageVm
        (sharedPageVm.nxMmSetAddressProtect 0x7FFDF000 0x2000 pageReadWrite) 0x7FFDF000
        0x2000 := by
  have hold : sharedPageVm.mem.pt 0x7FFE0 = mkEntry 0x3301 nxvPteP := by decide +kernel
  have hnew : (sharedPageVm.nxMmSetAddressProtect 0x7FFDF000 0x2000 pageReadWrite).mem.pt
      0x7FFE0 = mkEntry 0x3301 (nxvPteP ||| nxvPteRw) := by decide +kernel
  refine ⟨hold, hnew, ?_⟩
  intro hconf
  have htitle := (hconf 0x7FFE0 (by rw [hold, hnew]; decide)).1
  exact absurd htitle.2 (by decide)

end Roswell.Ports.TitleVm
