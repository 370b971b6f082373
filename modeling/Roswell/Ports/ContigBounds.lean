import Roswell.Ports.ContigHistories

/-!
# The bounds of a contiguous allocation

`NxMmAllocateContiguousMemoryEx` turns byte bounds into page bounds: the lowest
address is rounded up in thirty-two bits, the highest one is turned into a page
number in sixty-four and truncated.  Both conversions wrap at one end of their
range, and then the run search is given a window that has nothing to do with
the request.  For every other request the memory returned honours it.
-/

namespace Roswell.Ports.Contig

open Verified.Word PageSupply
open PageTables (pageSize)

/-- The arguments are words, and the alignment is zero or a power of two. -/
structure Request.Proper (r : Request) : Prop where
  bytes : r.numberOfBytes < 2 ^ 32
  lowest : r.lowestAcceptableAddress < 2 ^ 32
  highest : r.highestAcceptableAddress < 2 ^ 32
  align : r.alignment = 0 ∨ ∃ k, k ≤ 31 ∧ r.alignment = 2 ^ k

/-- The size of a request in whole pages. -/
def Request.roundedSize (r : Request) : Nat :=
  (r.numberOfBytes + (pageSize - 1)) / pageSize * pageSize

/-- The physical address of an allocation. -/
def Allocation.pa (a : Allocation) : Nat := a.base * pageSize

/-- The allocation is what the request asks for. -/
structure Honoured (r : Request) (a : Allocation) : Prop where
  size : a.pages * pageSize = r.roundedSize
  low : r.lowestAcceptableAddress ≤ a.pa
  high : a.pa + r.roundedSize - 1 ≤ r.highestAcceptableAddress
  ram : a.pa + r.roundedSize ≤ nxkKseg0RamSize
  page : pageSize ∣ a.pa
  align : r.alignment ≠ 0 → r.alignment ∣ a.pa

/-- The bounds survive their conversion to page numbers: rounding the lowest
address up does not wrap, and a whole page lies at or below the highest. -/
def Request.Convertible (r : Request) : Prop :=
  r.lowestAcceptableAddress + (pageSize - 1) < 2 ^ 32 ∧
    pageSize ≤ r.highestAcceptableAddress + 1

/-- The next lock hold of thread `t` returns `a` for the request `r`. -/
def Serves (s : System) (t : Nat) (r : Request) (a : Allocation) : Prop :=
  ∃ w, r.window = some w ∧
    (s.pcs t = .takeSlot w ∧ (s.take t).live = a :: s.live ∨
      ∃ slot, s.pcs t = .retry w slot ∧ (s.retry t).live = a :: s.live)

/-! ## What the lock holds return -/

/-- The run a successful take found. -/
structure Found (s : Supply) (w : Window) (base : Nat) : Prop where
  window : s.InRunWindow w.runPages w.lowPfn w.highPfn base
  aligned : alignDown base (Supply.effectiveAlign w.alignPages) = base

variable {r : Request} {w : Window}

theorem takeContiguous_found {s : Supply} (h : Inv s)
    (h0 : (takeContiguous s w).2.1 ≠ 0) : Found s w (takeContiguous s w).2.1 := by
  obtain ⟨t, base, moves, hres⟩ : ∃ t base moves, takeContiguous s w = (t, base, moves) :=
    ⟨_, _, _, rfl⟩
  rw [hres] at h0 ⊢
  unfold takeContiguous at hres
  rcases h.takeRun_spec w.runPages w.lowPfn w.highPfn w.alignPages with hnone | hyes
  · rw [hnone] at hres
    rcases h.takeRunRelocate_spec hres with hno | hreloc
    · exact absurd hno.2.1 h0
    · obtain ⟨b, hi, -, hwin, hal, -, -, -, hdone⟩ := hreloc
      rw [(hdone h0).1]
      exact ⟨hwin, hal⟩
  · obtain ⟨t', b, hrun, -, -, hwin, hal⟩ := hyes
    have hb := hwin.1
    rw [hrun] at hres
    simp only [if_neg (show b ≠ 0 by omega), Prod.mk.injEq] at hres
    obtain ⟨-, rfl, -⟩ := hres
    exact ⟨hwin, hal⟩

/-- An allocation that is returned was found in the supply of the moment. -/
theorem Serves.found {s : System} {t : Nat} {a : Allocation}
    (hinv : Inv s.tracking.supply) (h : Serves s t r a) :
    ∃ w, r.window = some w ∧ a.pages = w.runPages ∧ Found s.tracking.supply w a.base := by
  obtain ⟨w, hw, hserve⟩ := h
  have hgrown : s.live ≠ a :: s.live := fun e => by
    have := congrArg List.length e
    simp at this
  have hsame : s.tracking.nxpContigFindFreeSlotLocked.1.supply = s.tracking.supply := by
    unfold Tracking.nxpContigFindFreeSlotLocked
    split <;> rfl
  have hfinish : ∀ supply base moves, takeContiguous s.tracking.supply w = (supply, base, moves) →
      base ≠ 0 → (⟨base, w.runPages, w.numberOfBytes⟩ : Allocation) = a →
      ∃ w, r.window = some w ∧ a.pages = w.runPages ∧ Found s.tracking.supply w a.base := by
    rintro supply base moves htake h0 rfl
    have hfound := takeContiguous_found hinv (by rw [htake]; exact h0)
    rw [htake] at hfound
    exact ⟨w, hw, rfl, hfound⟩
  rcases hserve with ⟨hpc, hlive⟩ | ⟨slot, hpc, hlive⟩
  · simp only [System.take, hpc] at hlive
    rcases hfind : s.tracking.nxpContigFindFreeSlotLocked with ⟨c, slot⟩
    rw [hfind] at hlive hsame
    rw [hsame] at hlive
    by_cases hfull : slot = c.slots
    · rw [if_pos hfull] at hlive
      exact absurd hlive hgrown
    rcases htake : takeContiguous s.tracking.supply w with ⟨supply, base, moves⟩
    rw [htake] at hlive
    simp only at hlive
    split_ifs at hlive with h0
    · exact absurd hlive hgrown
    · exact hfinish supply base moves htake h0 (List.cons.inj hlive).1
  · simp only [System.retry, hpc] at hlive
    rcases htake : takeContiguous s.tracking.supply w with ⟨supply, base, moves⟩
    rw [htake] at hlive
    split_ifs at hlive with h0
    · exact absurd hlive hgrown
    · exact hfinish supply base moves htake h0 (List.cons.inj hlive).1

/-! ## From page bounds back to byte bounds -/

/-- What the window of a request says, in arithmetic. -/
structure WindowOf (r : Request) (w : Window) : Prop where
  run : w.runPages * pageSize = r.roundedSize
  run_pos : 0 < w.runPages
  low : r.lowestAcceptableAddress + (pageSize - 1) < 2 ^ 32 →
    r.lowestAcceptableAddress ≤ w.lowPfn * pageSize
  high : pageSize ≤ r.highestAcceptableAddress + 1 →
    (w.highPfn + 1) * pageSize ≤ r.highestAcceptableAddress + 1 ∧
      (w.highPfn + 1) * pageSize ≤ nxkKseg0RamSize
  align : w.alignPages = if r.alignment ≤ pageSize then 1 else r.alignment / pageSize

theorem Request.Proper.window (h : r.Proper)
    (hw : r.window = some w) : WindowOf r w := by
  have hps : pageSize = 4096 := rfl
  have hram : nxkKseg0RamSize = 0x4000000 := rfl
  have hnv : nxkNv2aInstanceBase = 0x3FE0000 := rfl
  have hbytes := h.bytes
  unfold Request.window at hw
  have hround : alignDown (wadd r.numberOfBytes (pageSize - 1)) pageSize =
      wadd r.numberOfBytes (pageSize - 1) / 4096 * 4096 :=
    alignDown_two_pow (k := 12) (wadd_lt _ _) (by decide)
  by_cases h0 : alignDown (wadd r.numberOfBytes (pageSize - 1)) pageSize = 0
  · rw [if_pos h0] at hw
    contradiction
  rw [if_neg h0, Option.some.injEq] at hw
  -- A size that wraps rounds to nothing, so this one does not.
  have hsum : r.numberOfBytes + (pageSize - 1) < 2 ^ 32 := by
    rw [hround, wadd_eq] at h0
    omega
  rw [wadd_of_lt hsum] at hround
  generalize hclamped : (if nxkKseg0RamSize - 1 < r.highestAcceptableAddress then nxkKseg0RamSize -
    1 else r.highestAcceptableAddress) = clamped
  have hcl : clamped ≤ r.highestAcceptableAddress ∧ clamped < nxkKseg0RamSize ∧
      (pageSize ≤ r.highestAcceptableAddress + 1 → pageSize ≤ clamped + 1) := by
    rw [← hclamped]
    split <;> omega
  rw [hclamped] at hw
  generalize htop : (if r.lowestAcceptableAddress < nxkNv2aInstanceBase ∧ nxkNv2aInstanceBase ≤
    clamped then nxkNv2aInstanceBase - 1 else clamped) = top
  have hbound : top ≤ clamped ∧ (pageSize ≤ clamped + 1 → pageSize ≤ top + 1) := by
    rw [← htop]
    split <;> omega
  subst hw
  refine ⟨?_, ?_, ?_, ?_, ?_⟩
  · simp only [Nat.shiftRight_eq_div_pow, pageShift, hround, Request.roundedSize,
      wadd_of_lt hsum]
    rw [hps]
    omega
  · simp only [Nat.shiftRight_eq_div_pow, pageShift, hround, wadd_of_lt hsum] at h0 ⊢
    omega
  · intro hlt
    simp only [Nat.shiftRight_eq_div_pow, pageShift, wadd_of_lt hlt]
    rw [hps]
    omega
  · intro hhi
    simp only [Nat.shiftRight_eq_div_pow, pageShift]
    rw [wsub_of_le (by omega) (by omega), hps]
    omega
  · simp only [Nat.shiftRight_eq_div_pow, pageShift]
    rfl

/-- The base of a run is aligned as the request asks. -/
theorem WindowOf.dvd_pa (h : WindowOf r w) (hr : r.Proper)
    {base : Nat} (hbase : base < 2 ^ 15)
    (hal : alignDown base (Supply.effectiveAlign w.alignPages) = base) (h0 : r.alignment ≠ 0) :
    r.alignment ∣ base * pageSize := by
  obtain ⟨k, hk, hpow⟩ := hr.align.resolve_left h0
  have hps : pageSize = 2 ^ 12 := rfl
  by_cases hle : k ≤ 12
  · rw [hpow, hps]
    exact Nat.dvd_trans (Nat.pow_dvd_pow 2 hle) (Nat.dvd_mul_left _ _)
  have hgt : ¬r.alignment ≤ pageSize := by
    rw [hpow, hps, Nat.pow_le_pow_iff_right (by decide)]
    exact hle
  have hpages : w.alignPages = 2 ^ (k - 12) := by
    rw [h.align, if_neg hgt, hpow, hps, Nat.pow_div (by omega) (by decide)]
  have heff : Supply.effectiveAlign w.alignPages = 2 ^ (k - 12) := by
    rw [Supply.effectiveAlign, hpages, if_neg (Nat.two_pow_pos _).ne']
  rw [heff, alignDown_two_pow (by omega) (by omega)] at hal
  have hdvd : 2 ^ (k - 12) ∣ base := by
    rw [← hal]
    exact roundDown_dvd _ _
  have hsplit : r.alignment = 2 ^ (k - 12) * pageSize := by
    rw [hpow, hps, ← Nat.pow_add]
    congr 1
    omega
  rw [hsplit]
  exact Nat.mul_dvd_mul_right hdvd _

/-- A non-null result honours its request exactly when the bounds survive their
conversion: for every consistent supply, at either attempt of the call. -/
theorem contiguous_honours_bounds {s : System} (hinv : Inv s.tracking.supply) {t : Nat}
    {r : Request} (hr : r.Proper) {a : Allocation} (h : Serves s t r a) :
    Honoured r a ↔ r.Convertible := by
  obtain ⟨w, hw, hpages, hfound⟩ := h.found hinv
  have hwin := hr.window hw
  obtain ⟨h1, h2, h3, h4⟩ := hfound.window
  have hmax := hinv.highest_lt
  have hps : pageSize = 4096 := rfl
  have hrun := hwin.run
  have hpos := hwin.run_pos
  have hpa : a.pa = a.base * 4096 := rfl
  rw [hps] at hrun
  constructor
  · intro hh
    have hlo := hh.low
    have hhi := hh.high
    unfold Request.Convertible
    omega
  · rintro ⟨hl, hhigh⟩
    have hlo := hwin.low hl
    obtain ⟨hhi, hr64⟩ := hwin.high hhigh
    rw [hps] at hlo hhi hr64
    refine ⟨by rw [hpages]; exact hwin.run, by omega, by omega, by omega,
      Nat.dvd_mul_left _ _, ?_⟩
    exact fun h0 => hwin.dvd_pa hr (by omega) hfound.aligned h0

/-- The system whose only free page is the last one, with a thread about to take
a slot for the request. -/
def lastPageCall (r : Request) : System := Act.apply (onePageSystem 0x3FFF) (.call 1 r)

theorem contiguous_honours_bounds_lastPage :
    Serves (lastPageCall ⟨0x800, 0x3FF0000, 0xFFFFFFFF, 0x1000⟩) 1
        ⟨0x800, 0x3FF0000, 0xFFFFFFFF, 0x1000⟩ ⟨0x3FFF, 1, 0x800⟩ ∧
      Honoured ⟨0x800, 0x3FF0000, 0xFFFFFFFF, 0x1000⟩ ⟨0x3FFF, 1, 0x800⟩ := by
  have hserves : Serves (lastPageCall ⟨0x800, 0x3FF0000, 0xFFFFFFFF, 0x1000⟩) 1
      ⟨0x800, 0x3FF0000, 0xFFFFFFFF, 0x1000⟩ ⟨0x3FFF, 1, 0x800⟩ :=
    ⟨_, rfl, .inl ⟨by decide +kernel, by decide +kernel⟩⟩
  have hproper : Request.Proper ⟨0x800, 0x3FF0000, 0xFFFFFFFF, 0x1000⟩ :=
    ⟨by decide, by decide, by decide, .inr ⟨12, by decide, rfl⟩⟩
  have hinv : Inv (onePage 0x3FFF) := onePage_inv (by decide) (by decide)
  exact ⟨hserves, (contiguous_honours_bounds hinv hproper hserves).2 ⟨by decide, by decide⟩⟩

/-- A highest address below the first page lifts the upper bound altogether, and
a lowest address in the last page lowers the lower bound to nothing. -/
theorem lastPage_breaks_bounds :
    Boot (onePageSystem 0x3FFF) ∧
      (Serves (lastPageCall ⟨0x1000, 0, 0xFFE, 0⟩) 1 ⟨0x1000, 0, 0xFFE, 0⟩ ⟨0x3FFF, 1, 0x1000⟩ ∧
        ¬Honoured ⟨0x1000, 0, 0xFFE, 0⟩ ⟨0x3FFF, 1, 0x1000⟩) ∧
      Serves (lastPageCall ⟨0x1000, 0xFFFFF001, 0xFFFFFFFF, 0⟩) 1
          ⟨0x1000, 0xFFFFF001, 0xFFFFFFFF, 0⟩ ⟨0x3FFF, 1, 0x1000⟩ ∧
        ¬Honoured ⟨0x1000, 0xFFFFF001, 0xFFFFFFFF, 0⟩ ⟨0x3FFF, 1, 0x1000⟩ := by
  refine ⟨onePageSystem_boot (by decide) (by decide),
    ⟨⟨_, rfl, .inl ⟨by decide +kernel, by decide +kernel⟩⟩, ?_⟩,
    ⟨_, rfl, .inl ⟨by decide +kernel, by decide +kernel⟩⟩, ?_⟩
  · exact fun hh => absurd hh.high (by decide)
  · exact fun hh => absurd hh.low (by decide)

end Roswell.Ports.Contig
