import Mathlib.Data.List.Chain
import Roswell.Verified.Endian

/-!
# The performance counter

Model of `NxkReadPmt`, which extends the 24-bit power management timer to 64 bits.  The
high part and the last sample are kept apart; a sample below the last one means that the
timer has wrapped.  The calls run one after another at `DISPATCH_LEVEL`.
-/

namespace Roswell.Ports.PerformanceCounter

def xbPmtMask : UInt32 := 0x00FFFFFF

/-- `NxkPmtHigh` and `NxkPmtLastLow`. -/
structure Pmt where
  high : UInt64
  lastLow : UInt32
  deriving DecidableEq, Repr

def boot : Pmt := ⟨0, 0⟩

/-- A call that reads `port` from the timer. -/
def nxkReadPmt (s : Pmt) (port : UInt32) : Pmt × UInt64 :=
  let cur := port &&& xbPmtMask
  let high := if cur < s.lastLow then s.high + (xbPmtMask.toUInt64 + 1) else s.high
  (⟨high, cur⟩, high ||| cur.toUInt64)

/-- What the port shows when the timer has ticked so often; the upper byte is arbitrary. -/
structure Sample where
  ticks : Nat
  port : UInt32
  shows : port.toNat % 2 ^ 24 = ticks % 2 ^ 24

/-- The values that a sequence of calls returns. -/
def readings (s : Pmt) : List Sample → List UInt64
  | [] => []
  | x :: rest =>
    let (s, value) := nxkReadPmt s x.port
    value :: readings s rest

/-- The next call comes before the timer has made a turn. -/
def Close (x y : Sample) : Prop := x.ticks ≤ y.ticks ∧ y.ticks < x.ticks + 2 ^ 24

/-- The state after a sample at `ticks`; the high part counts the turns from `base` on. -/
structure Follows (base : Nat) (s : Pmt) (ticks : Nat) : Prop where
  started : base ≤ ticks / 2 ^ 24
  low : s.lastLow.toNat = ticks % 2 ^ 24
  high : s.high = UInt64.ofNat (2 ^ 24 * (ticks / 2 ^ 24 - base))

theorem toNat_sample (x : Sample) : (x.port &&& xbPmtMask).toNat = x.ticks % 2 ^ 24 := by
  rw [UInt32.toNat_and, ← x.shows]
  exact Nat.and_two_pow_sub_one_eq_mod x.port.toNat 24

theorem high_or_low (turns : Nat) {cur : UInt32} (hcur : cur.toNat < 2 ^ 24) :
    UInt64.ofNat (2 ^ 24 * turns) ||| cur.toUInt64 = UInt64.ofNat (2 ^ 24 * turns + cur.toNat) := by
  apply UInt64.toNat_inj.1
  have hwrap : 2 ^ 24 * turns % 2 ^ 64 = 2 ^ 24 * (turns % 2 ^ 40) := by omega
  rw [UInt64.toNat_or, UInt64.toNat_ofNat', UInt64.toNat_ofNat', UInt32.toNat_toUInt64, hwrap,
    Nat.or_comm, Verified.Endian.or_eq_add hcur]
  omega

/-- One call. -/
theorem Follows.read {base ticks : Nat} {s : Pmt} (h : Follows base s ticks) {x : Sample}
    (hle : ticks ≤ x.ticks) (hlt : x.ticks < ticks + 2 ^ 24) :
    Follows base (nxkReadPmt s x.port).1 x.ticks ∧
      (nxkReadPmt s x.port).2 = UInt64.ofNat (x.ticks - 2 ^ 24 * base) := by
  have hstarted := h.started
  have hlow := toNat_sample x
  have hhigh : (if x.port &&& xbPmtMask < s.lastLow then s.high + (xbPmtMask.toUInt64 + 1)
      else s.high) = UInt64.ofNat (2 ^ 24 * (x.ticks / 2 ^ 24 - base)) := by
    by_cases hwrap : x.port &&& xbPmtMask < s.lastLow
    · rw [if_pos hwrap, h.high]
      rw [UInt32.lt_iff_toNat_lt, hlow, h.low] at hwrap
      rw [show x.ticks / 2 ^ 24 - base = ticks / 2 ^ 24 - base + 1 by omega, Nat.mul_succ,
        UInt64.ofNat_add]
      rfl
    · rw [if_neg hwrap, h.high]
      rw [UInt32.lt_iff_toNat_lt, hlow, h.low] at hwrap
      rw [show x.ticks / 2 ^ 24 = ticks / 2 ^ 24 by omega]
  refine ⟨⟨by omega, hlow, hhigh⟩, ?_⟩
  show _ ||| _ = _
  rw [hhigh, high_or_low _ (by omega), hlow]
  congr 1
  omega

/-- Every value tells the ticks from the same start on. -/
theorem Follows.readings {base ticks : Nat} {s : Pmt} (h : Follows base s ticks)
    {x : Sample} {l : List Sample} (hle : ticks ≤ x.ticks) (hlt : x.ticks < ticks + 2 ^ 24)
    (hclose : (x :: l).IsChain Close) :
    readings s (x :: l) = (x :: l).map fun y => UInt64.ofNat (y.ticks - 2 ^ 24 * base) := by
  induction l generalizing s ticks x with
  | nil => simp [PerformanceCounter.readings, (h.read hle hlt).2]
  | cons y l ih =>
    obtain ⟨hfollows, hvalue⟩ := h.read hle hlt
    rw [List.isChain_cons_cons] at hclose
    rw [PerformanceCounter.readings, List.map_cons, ← hvalue]
    exact congrArg _ (ih hfollows hclose.1.1 hclose.1.2 hclose.2)

/-- The values of any two calls differ by the ticks between them. -/
theorem readings_elapsed (l : List Sample) (hclose : l.IsChain Close) {i j : Nat} (hij : i ≤ j)
    (hj : j < l.length) :
    (readings boot l).getD j 0 - (readings boot l).getD i 0 =
      UInt64.ofNat ((l.get ⟨j, hj⟩).ticks - (l.get ⟨i, by omega⟩).ticks) := by
  have hmono : ∀ {a b : Nat} (hab : a ≤ b) (hb : b < l.length),
      (l.get ⟨a, by omega⟩).ticks ≤ (l.get ⟨b, hb⟩).ticks := by
    intro a b hab hb
    rcases Nat.lt_or_eq_of_le hab with hlt | rfl
    · have hpairs := ((List.isChain_map (·.ticks)).2 (hclose.imp fun _ _ h => h.1)).pairwise
      have hpair := List.pairwise_iff_getElem.1 hpairs a b (by simp; omega) (by simpa) hlt
      simpa using hpair
    · exact Nat.le_refl _
  obtain ⟨x, rest, rfl⟩ : ∃ x rest, l = x :: rest := List.exists_cons_of_length_pos (by omega)
  have hstart : Follows (x.ticks / 2 ^ 24) boot (x.ticks / 2 ^ 24 * 2 ^ 24) := by
    constructor
    · omega
    · rw [Nat.mul_mod_left]
      rfl
    · rw [Nat.mul_div_cancel _ (by decide), Nat.sub_self]
      rfl
  have hfirst := hmono (Nat.zero_le i) (by omega)
  have hlast := hmono hij hj
  rw [hstart.readings (by omega) (by omega) hclose]
  rw [List.getD_eq_getElem?_getD, List.getD_eq_getElem?_getD, List.getElem?_map, List.getElem?_map,
    List.getElem?_eq_getElem hj, List.getElem?_eq_getElem (Nat.lt_of_le_of_lt hij hj)]
  simp only [List.get_eq_getElem, List.getElem_cons_zero, Option.map_some,
    Option.getD_some] at hfirst hlast ⊢
  rw [← UInt64.ofNat_sub (by omega)]
  congr 1
  omega

/-- The timer wraps between the second call and the third. -/
theorem readings_elapsed_wrap :
    (readings boot [⟨5, 5, rfl⟩, ⟨0xFFFFFF, 0xFFFFFF, rfl⟩, ⟨0x1000003, 3, rfl⟩]).getD 2 0 -
      (readings boot [⟨5, 5, rfl⟩, ⟨0xFFFFFF, 0xFFFFFF, rfl⟩, ⟨0x1000003, 3, rfl⟩]).getD 0 0 =
        UInt64.ofNat (0x1000003 - 5) :=
  readings_elapsed _ (by simp [Close]) (Nat.zero_le 2) (by decide)

end Roswell.Ports.PerformanceCounter
