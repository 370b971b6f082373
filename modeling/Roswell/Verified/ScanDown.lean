import Roswell.Verified.Word

/-!
# Top-down searches over aligned bases

An allocator looks for a run of `run` pages by testing aligned bases from the
top of a window downwards.  A rejected base names the page that spoiled it, and
the search jumps to the highest aligned base whose run ends at or before that
page.  `scanDown` is this search with the test as a parameter.

`scanDown_sound` says that the result passed the test.  `scanDown_highest` says
that the jumps skip nothing: for a power-of-two alignment, if every base the
jump passes over would have failed as well, the result is the highest aligned
base of the window that passes.
-/

namespace Roswell.Verified.ScanDown

open Word

/-- The outcome of testing one base. -/
inductive Verdict where
  /-- The run fits here. -/
  | fits
  /-- The run does not fit; continue with runs that end at or before `failed`. -/
  | rejected (failed : Nat)
  /-- No lower base can fit either. -/
  | stop
  deriving DecidableEq, Repr

/-- The search, from `base` downwards. -/
def scanDown (test : Nat → Verdict) (low run align : Nat) : Nat → Nat → Option Nat
  | 0, _ => none
  | fuel + 1, base =>
    if base < low then none
    else
      match test base with
      | .fits => some base
      | .rejected failed =>
        if failed < run then none
        else scanDown test low run align fuel (alignDown (failed - run) align)
      | .stop => none

variable {test : Nat → Verdict} {low run align : Nat}

/-- The result lies in the window, passed the test, and is aligned when the
first candidate is. -/
theorem scanDown_sound {fuel start base : Nat}
    (hrej : ∀ b failed, test b = .rejected failed → failed ≤ b + run)
    (h : scanDown test low run align fuel start = some base) :
    low ≤ base ∧ base ≤ start ∧ test base = .fits ∧
      (alignDown start align = start → alignDown base align = base) := by
  induction fuel generalizing start with
  | zero => simp [scanDown] at h
  | succ fuel ih =>
    rw [scanDown] at h
    by_cases hlow : start < low
    · rw [if_pos hlow] at h
      contradiction
    rw [if_neg hlow] at h
    cases ht : test start with
    | fits =>
      simp only [ht, Option.some.injEq] at h
      subst h
      exact ⟨by omega, Nat.le_refl _, ht, id⟩
    | stop => simp [ht] at h
    | rejected failed =>
      simp only [ht] at h
      by_cases hlt : failed < run
      · rw [if_pos hlt] at h
        contradiction
      · rw [if_neg hlt] at h
        obtain ⟨h1, h2, h3, h4⟩ := ih h
        have hle := alignDown_le (failed - run) align
        have hfail := hrej start failed ht
        exact ⟨h1, by omega, h3, fun _ => h4 (alignDown_alignDown _ _)⟩

/-- The jumps lose nothing.  `hrej` asks that a rejection rule out every aligned
base below it whose run still reaches the spoiling page, and `hstop` that a stop
rule out every aligned base below it. -/
theorem scanDown_highest {k : Nat} (hk : k ≤ 32) (halign : align = 2 ^ k)
    (hrej : ∀ base failed, test base = .rejected failed → align ∣ base → low ≤ base →
      failed < base + run ∧
        ∀ b, b ≤ base → align ∣ b → failed < b + run → test b ≠ .fits)
    (hstop : ∀ base, test base = .stop → align ∣ base → low ≤ base →
      ∀ b, low ≤ b → b ≤ base → align ∣ b → test b ≠ .fits)
    {fuel start : Nat} (hfuel : start < fuel) (hword : start < 2 ^ 32)
    (hstart : align ∣ start) {b : Nat} (hb : low ≤ b) (hbs : b ≤ start) (hba : align ∣ b)
    (hfit : test b = .fits) :
    ∃ base, scanDown test low run align fuel start = some base ∧ b ≤ base := by
  induction fuel generalizing start with
  | zero => omega
  | succ fuel ih =>
    have hlow : ¬start < low := by omega
    rw [scanDown, if_neg hlow]
    cases ht : test start with
    | fits => exact ⟨start, rfl, hbs⟩
    | stop => exact absurd hfit (hstop start ht hstart (by omega) b hb hbs hba)
    | rejected failed =>
      obtain ⟨hlt, hskip⟩ := hrej start failed ht hstart (by omega)
      have hreach : ¬failed < b + run := fun hc => hskip b hbs hba hc hfit
      have hpos : 0 < align := by
        rw [halign]
        exact Nat.two_pow_pos k
      have hdown : alignDown (failed - run) align = roundDown (failed - run) align := by
        rw [halign]
        exact alignDown_two_pow (by omega) hk
      have hle := roundDown_le (failed - run) align
      simp only
      rw [if_neg (by omega), hdown]
      exact ih (by omega) (by omega) (roundDown_dvd _ _)
        (le_roundDown hpos hba (by omega))

end Roswell.Verified.ScanDown
