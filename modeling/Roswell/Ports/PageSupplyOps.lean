import Mathlib.Order.Interval.Finset.Nat
import Roswell.Ports.PageSupplyLists
import Roswell.Verified.ScanDown

/-!
# Operations of the page supply

Every take is one or more unlinks of free pages, every return one push.  The
relation `Took` records what a single-page take does to the table: the page
was free, it is now in use and ownerless, no other page changed between free
and in use, and the words of pages already in use are untouched.  Each
single-page operation has a specification lemma in terms of it; the run
allocators are handled by induction over their loops.
-/

namespace Roswell.Ports.PageSupply

open Verified.Word Verified.DoubleLink Verified.ScanDown Supply

/-- `t` is `s` with one free page taken off its list. -/
structure Took (s t : Supply) (page : Nat) : Prop where
  was_free : s.free page = true
  inv : Inv t
  free : ∀ q, t.free q = (decide (q ≠ page) && s.free q)
  links : ∀ q, s.free q = false → t.links q = s.links q
  links_self : t.links page = 0
  highest : t.highestPfn = s.highestPfn

namespace Took

variable {s t : Supply} {page q : Nat}

theorem not_free (h : Took s t page) : t.free page = false := by
  rw [h.free]
  simp

/-- A page in use stays in use. -/
theorem inUse (h : Took s t page) (hq : s.free q = false) : t.free q = false := by
  rw [h.free, hq, Bool.and_false]

end Took

namespace Inv

variable {s : Supply} {page q low high : Nat}

/-- The specification of `nxpUnlink` on a free page. -/
theorem took (h : Inv s) (hf : s.free page = true) : Took s (s.nxpUnlink page) page where
  was_free := hf
  inv := h.unlink hf
  free := h.unlink_free hf
  links := fun _ hq => h.unlink_links hf hq
  links_self := h.unlink_links_self hf
  highest := nxpUnlink_highestPfn

/-! ## Returning a page -/

theorem push_free (h : Inv s) (h0 : page ≠ 0) (hle : page ≤ s.highestPfn)
    (hf : s.free page = false) (q : Nat) :
    (s.nxpPushHead page).free q = (decide (q = page) || s.free q) := by
  obtain ⟨kernel, title, hl⟩ := h.lists
  exact hl.push_free hf h0 hle h.highest_lt q

/-- The hint after a return is the smaller of the old hint and the page. -/
theorem return_eq (s : Supply) (page : Nat) :
    s.nxkPageSupplyReturn page =
      { s.nxpPushHead page with spillHint := min page s.spillHint } := by
  simp only [nxkPageSupplyReturn, nxpPushHead_spillHint]
  split_ifs with hlt
  · rw [Nat.min_eq_left (by omega)]
  · rw [Nat.min_eq_right (by omega)]
    conv => rhs; rw [← @nxpPushHead_spillHint s page]

theorem return_free (h : Inv s) (h0 : page ≠ 0) (hle : page ≤ s.highestPfn)
    (hf : s.free page = false) (q : Nat) :
    (s.nxkPageSupplyReturn page).free q = (decide (q = page) || s.free q) := by
  rw [← h.push_free h0 hle hf q, return_eq]
  rfl

/-- Returning a page touches no other page in use. -/
theorem return_links (h : Inv s) (h0 : page ≠ 0) (hf : s.free page = false)
    (hq : s.free q = false) (hqp : q ≠ page) :
    (s.nxkPageSupplyReturn page).links q = s.links q := by
  obtain ⟨kernel, title, hl⟩ := h.lists
  have hlinks : (s.nxkPageSupplyReturn page).links q = (s.nxpPushHead page).links q := by
    rw [return_eq]
  have hhead : ¬(s.nxpHeadFor page ≠ 0 ∧ q = s.nxpHeadFor page) := by
    rintro ⟨hne, rfl⟩
    rw [(hl.headFor_cases page).resolve_left hne] at hq
    contradiction
  rw [hlinks, nxpPushHead_links s page (hl.headFor_ne hf h0), if_neg hqp,
    if_neg hhead]

@[simp] theorem return_highestPfn (s : Supply) (page : Nat) :
    (s.nxkPageSupplyReturn page).highestPfn = s.highestPfn := by
  rw [return_eq]
  simp

theorem push_freePages (h : Inv s) (h0 : page ≠ 0) (hle : page ≤ s.highestPfn)
    (hf : s.free page = false) :
    (s.nxpPushHead page).freePages = insert page s.freePages := by
  ext p
  simp only [freePages, nxpPushHead_highestPfn, h.push_free h0 hle hf,
    Finset.mem_filter, Finset.mem_insert, Finset.mem_range, Bool.or_eq_true,
    decide_eq_true_eq]
  constructor
  · rintro ⟨hp, rfl | hfp⟩
    · exact .inl rfl
    · exact .inr ⟨hp, hfp⟩
  · rintro (rfl | ⟨hp, hfp⟩)
    · exact ⟨by omega, .inl rfl⟩
    · exact ⟨hp, .inr hfp⟩

/-- Returning a page in use keeps the invariant.  The hint is lowered to the
page when it was above it, so it stays below every free generic page. -/
theorem giveBack (h : Inv s) (h0 : page ≠ 0) (hle : page ≤ s.highestPfn)
    (hf : s.free page = false) : Inv (s.nxkPageSupplyReturn page) := by
  have hfree := h.return_free h0 hle hf
  have hpages := h.push_freePages h0 hle hf
  have hmem : page ∉ s.freePages := fun hm => by
    rw [h.mem_freePages.1 hm] at hf
    contradiction
  have hgmem : page ∉ s.genericPages := fun hm => hmem (Finset.mem_of_mem_filter page hm)
  have hlt := h.card_freePages_lt
  have hgle := card_genericPages_le s
  have howner : ∀ p, (s.nxkPageSupplyReturn page).free p = false →
      (s.nxkPageSupplyReturn page).links p < 2 ^ 30 := by
    intro p hp
    rw [hfree, Bool.or_eq_false_iff, decide_eq_false_iff_not] at hp
    rw [h.return_links h0 hf hp.2 hp.1]
    exact h.owner_lt p hp.2
  obtain ⟨kernel, title, hl⟩ := h.lists
  have hlists := hl.push hf h0 hle h.highest_lt
  have hhint : ∀ p, (s.nxkPageSupplyReturn page).free p = true →
      nxpGenericFloorPfn ≤ p → min page s.spillHint ≤ p := by
    intro p hp hfl
    rw [hfree, Bool.or_eq_true, decide_eq_true_eq] at hp
    rcases hp with rfl | hp
    · exact Nat.min_le_left _ _
    · exact Nat.le_trans (Nat.min_le_right _ _) (h.hint_low p hp hfl)
  rw [return_eq] at howner hhint ⊢
  refine
    { floor_le := by simpa using h.floor_le
      highest_lt := by simpa using h.highest_lt
      lists := ⟨_, _, hlists.1, hlists.2, hlists.3, hlists.4, hlists.5, hlists.6⟩
      available := ?_
      generic := ?_
      hint_low := hhint
      hint_pos := ?_
      hint_le := by simpa using .inl hle
      owner_lt := howner
      kernel_floor := ?_ }
  · change (s.nxpPushHead page).availablePages = (s.nxpPushHead page).freePages.card
    rw [nxpPushHead_availablePages, hpages, Finset.card_insert_of_notMem hmem,
      h.available, wadd_of_lt (by omega)]
  · change (s.nxpPushHead page).genericAvail = (s.nxpPushHead page).genericPages.card
    rw [nxpPushHead_genericAvail, genericPages, hpages, Finset.filter_insert]
    by_cases hfl : nxpGenericFloorPfn ≤ page
    · rw [if_pos hfl, if_pos hfl, ← genericPages,
        Finset.card_insert_of_notMem hgmem, h.generic, wadd_of_lt (by omega)]
    · rw [if_neg hfl, if_neg hfl, ← genericPages, h.generic]
  · have := h.hint_pos
    simp only
    omega
  · intro p hp
    have hp' : (s.nxpPushHead page).kernelClass p = true := hp
    rw [nxpPushHead_kernelClass] at hp'
    exact h.kernel_floor p hp'

/-! ## Owner entries -/

theorem setOwner (h : Inv s) (page pteVa : Nat) :
    Inv (s.nxkPageSupplySetOwner page pteVa) := by
  unfold nxkPageSupplySetOwner
  split
  · rename_i hc
    refine h.setEntry hc.2.2 ?_
    split
    · exact ownerIndex_lt pteVa
    · decide
  · exact h

end Inv

/-! ## Scans -/

namespace Supply

/-- The upward scan returns the lowest free page from `pfn` on, or there is none. -/
theorem spillScan_spec (s : Supply) {fuel pfn : Nat} (hpos : 0 < pfn)
    (hfuel : s.highestPfn < pfn + fuel) :
    (s.spillScan fuel pfn = 0 ∧ ∀ q, pfn ≤ q → q ≤ s.highestPfn → s.free q = false) ∨
      (s.free (s.spillScan fuel pfn) = true ∧ pfn ≤ s.spillScan fuel pfn ∧
        ∀ q, pfn ≤ q → q < s.spillScan fuel pfn → s.free q = false) := by
  induction fuel generalizing pfn with
  | zero => exact .inl ⟨rfl, fun q h1 h2 => by omega⟩
  | succ fuel ih =>
    rw [spillScan]
    by_cases hf : s.free pfn = true
    · rw [if_pos hf]
      exact .inr ⟨hf, Nat.le_refl _, fun q h1 h2 => by omega⟩
    have hstep : ∀ q, pfn ≤ q → (pfn + 1 ≤ q → s.free q = false) → s.free q = false := by
      intro q hq hrest
      by_cases hqp : q = pfn
      · simpa [hqp] using hf
      · exact hrest (by omega)
    rw [if_neg hf]
    split_ifs with hle
    · exact .inl ⟨rfl, fun q h1 h2 => hstep q h1 (by omega)⟩
    · rcases ih (show 0 < pfn + 1 by omega) (by omega) with
        ⟨hzero, hnone⟩ | ⟨hfree, hge, hlow⟩
      · exact .inl ⟨hzero, fun q h1 h2 => hstep q h1 fun h => hnone q h h2⟩
      · exact .inr ⟨hfree, by omega, fun q h1 h2 => hstep q h1 fun h => hlow q h h2⟩

/-- The upward scan returns a free page outside the window. -/
theorem outsideScan_spec (s : Supply) {low high n pfn : Nat}
    (h0 : s.outsideScan low high n pfn ≠ 0) :
    s.free (s.outsideScan low high n pfn) = true ∧
      inWindow low high (s.outsideScan low high n pfn) = false ∧
      pfn ≤ s.outsideScan low high n pfn ∧
      ∀ q, pfn ≤ q → q < s.outsideScan low high n pfn →
        ¬(s.free q = true ∧ inWindow low high q = false) := by
  induction n generalizing pfn with
  | zero => simp [outsideScan] at h0
  | succ n ih =>
    rw [outsideScan] at h0 ⊢
    by_cases hc : s.free pfn = true ∧ inWindow low high pfn = false
    · rw [if_pos hc]
      exact ⟨hc.1, hc.2, Nat.le_refl _, fun q h1 h2 => by omega⟩
    rw [if_neg hc] at h0 ⊢
    obtain ⟨hfree, hwin, hge, hlow⟩ := ih h0
    refine ⟨hfree, hwin, by omega, ?_⟩
    intro q h1 h2
    by_cases hq : q = pfn
    · rw [hq]
      exact hc
    · exact hlow q (by omega) h2

/-- The upward scan misses nothing between its start and its end. -/
theorem outsideScan_complete (s : Supply) {low high n pfn : Nat} (hpfn : pfn ≠ 0)
    (h0 : s.outsideScan low high n pfn = 0) {q : Nat} (h1 : pfn ≤ q) (h2 : q < pfn + n) :
    ¬(s.free q = true ∧ inWindow low high q = false) := by
  induction n generalizing pfn with
  | zero => omega
  | succ n ih =>
    rw [outsideScan] at h0
    split_ifs at h0 with hc
    · exact absurd h0 hpfn
    · by_cases hq : q = pfn
      · rw [hq]
        exact hc
      · exact ih (by omega) h0 (by omega) (by omega)

end Supply

namespace FreeLists

variable {s : Supply} {kernel title : List Nat}

private theorem length_lt {l : List Nat} {n : Nat} (hnd : l.Nodup)
    (h : ∀ x ∈ l, x ≠ 0 ∧ x ≤ n) : l.length < n + 1 := by
  have hsub : l.toFinset ⊆ Finset.Icc 1 n := by
    intro x hx
    have := h x (List.mem_toFinset.1 hx)
    rw [Finset.mem_Icc]
    omega
  have hcard := Finset.card_le_card hsub
  rw [List.toFinset_card_of_nodup hnd, Nat.card_Icc] at hcard
  omega

/-- A walk over the kernel list finds its first accepted page. -/
theorem walk_kernel (h : FreeLists s kernel title) (p : Nat → Bool) :
    s.walkList p s.freeHeadKernel = (kernel.find? p).getD 0 := by
  refine h.kernel_list.walk_eq p (length_lt h.kernel_list.nodup ?_)
  intro x hx
  exact ⟨h.kernel_list.ne_zero x hx, h.free_le x ((h.free_iff x).2 (.inl hx))⟩

theorem walk_title (h : FreeLists s kernel title) (p : Nat → Bool) :
    s.walkList p s.freeHeadTitle = (title.find? p).getD 0 := by
  refine h.title_list.walk_eq p (length_lt h.title_list.nodup ?_)
  intro x hx
  exact ⟨h.title_list.ne_zero x hx, h.free_le x ((h.free_iff x).2 (.inr hx))⟩

/-- What a list walk finds is free and accepted. -/
theorem find_spec {l : List Nat} {p : Nat → Bool} (h0 : (l.find? p).getD 0 ≠ 0) :
    (l.find? p).getD 0 ∈ l ∧ p ((l.find? p).getD 0) = true := by
  cases hf : l.find? p with
  | none => simp [hf] at h0
  | some x => exact ⟨List.mem_of_find?_eq_some hf, List.find?_some hf⟩

end FreeLists

/-! ## Single-page takes -/

/-- The frames `NxkPageSupplyTakeAnyOutside` can reach. -/
def Supply.destinations (s : Supply) (low high : Nat) : Finset Nat :=
  s.freePages.filter (fun p => s.spillHint ≤ p ∧ inWindow low high p = false)

namespace Inv

variable {s : Supply} {page q low high : Nat}

theorem kernelHead_free (h : Inv s) (h0 : s.freeHeadKernel ≠ 0) :
    s.free s.freeHeadKernel = true ∧ nxpGenericFloorPfn ≤ s.freeHeadKernel := by
  obtain ⟨kernel, title, hl⟩ := h.lists
  have hm := hl.kernel_list.head_mem h0
  exact ⟨(hl.free_iff _).2 (.inl hm), h.kernel_floor _ (hl.kernel_class _ hm)⟩

/-- `NxkPageSupplyTakeAny` takes a page at or above the floor as long as there is one. -/
theorem takeAny_spec (h : Inv s) :
    (s.genericAvail = 0 ∧ s.nxkPageSupplyTakeAny = (s, 0)) ∨
      (Took s s.nxkPageSupplyTakeAny.1 s.nxkPageSupplyTakeAny.2 ∧
        nxpGenericFloorPfn ≤ s.nxkPageSupplyTakeAny.2) := by
  have hempty : (∀ p, s.free p = true → nxpGenericFloorPfn ≤ p → False) → s.genericAvail = 0 := by
    intro hno
    rw [h.generic, Finset.card_eq_zero, Finset.eq_empty_iff_forall_notMem]
    exact fun p hp => hno p (h.mem_genericPages.1 hp).1 (h.mem_genericPages.1 hp).2
  unfold nxkPageSupplyTakeAny
  by_cases hk : s.freeHeadKernel ≠ 0
  · rw [if_pos hk]
    obtain ⟨hf, hfl⟩ := h.kernelHead_free hk
    exact .inr ⟨h.took hf, hfl⟩
  rw [if_neg hk]
  by_cases ht : s.freeHeadTitle = 0
  · -- Both lists are empty, so no page is free.
    obtain ⟨kernel, title, hl⟩ := h.lists
    have hkernel := hl.kernel_list.head_eq_zero_iff.1 (not_not.1 hk)
    have htitle := hl.title_list.head_eq_zero_iff.1 ht
    rw [if_pos ht]
    refine .inl ⟨hempty fun p hp _ => ?_, rfl⟩
    simpa [hkernel, htitle] using (hl.free_iff p).1 hp
  rw [if_neg ht]
  generalize hstart : (if s.spillHint < nxpGenericFloorPfn then nxpGenericFloorPfn
    else s.spillHint) = start
  have hpos : 0 < nxpGenericFloorPfn := by decide
  have hfloor : nxpGenericFloorPfn ≤ start := by
    rw [← hstart]
    split <;> omega
  have hlow : ∀ p, s.free p = true → nxpGenericFloorPfn ≤ p → start ≤ p := by
    intro p hp hpf
    have := h.hint_low p hp hpf
    rw [← hstart]
    split <;> omega
  have hreach : s.highestPfn < start + (s.highestPfn + 1) := by omega
  rcases s.spillScan_spec (by omega) hreach with
    ⟨hz, hnone⟩ | ⟨hf, hge, hskip⟩
  · rw [if_pos hz]
    refine .inl ⟨hempty fun p hp hpf => ?_, rfl⟩
    exact absurd ((hnone p (hlow p hp hpf) (h.free_le hp)).symm.trans hp) (by decide)
  rw [if_neg (by omega)]
  -- The scan skipped no free page, so its result is a valid new hint.
  have hmin : ∀ p, s.free p = true → nxpGenericFloorPfn ≤ p →
      s.spillScan (s.highestPfn + 1) start ≤ p := by
    intro p hp hpf
    by_contra hlt
    exact absurd ((hskip p (hlow p hp hpf) (by omega)).symm.trans hp) (by decide)
  have htook := (h.setHint (by omega) (h.free_le hf) hmin).took hf
  exact .inr ⟨⟨hf, htook.inv, htook.free, htook.links, htook.links_self,
    htook.highest⟩, by omega⟩

theorem mem_destinations (h : Inv s) {p : Nat} :
    p ∈ s.destinations low high ↔
      s.free p = true ∧ s.spillHint ≤ p ∧ inWindow low high p = false := by
  rw [destinations, Finset.mem_filter, h.mem_freePages]

/-- `NxkPageSupplyTakeAnyOutside` takes the head of the kernel list when that lies outside
the window, else the lowest frame it can reach, and nothing only when there is none. -/
theorem takeAnyOutside_spec (h : Inv s) (low high : Nat) :
    s.destinations low high = ∅ ∧ s.nxkPageSupplyTakeAnyOutside low high = (s, 0) ∨
      ∃ page ∈ s.destinations low high,
        s.nxkPageSupplyTakeAnyOutside low high = (s.nxpUnlink page, page) ∧
        if s.freeHeadKernel ≠ 0 ∧ inWindow low high s.freeHeadKernel = false then
          page = s.freeHeadKernel
        else ∀ e ∈ s.destinations low high, page ≤ e := by
  obtain ⟨kernel, title, hl⟩ := h.lists
  unfold nxkPageSupplyTakeAnyOutside
  by_cases hk : s.freeHeadKernel ≠ 0 ∧ inWindow low high s.freeHeadKernel = false
  · rw [if_pos hk]
    obtain ⟨hf, hfl⟩ := h.kernelHead_free hk.1
    exact .inr ⟨_, h.mem_destinations.2 ⟨hf, h.hint_low _ hf hfl, hk.2⟩, rfl, by rw [if_pos hk]⟩
  rw [if_neg hk]
  by_cases hs : s.outsideScan low high (s.highestPfn + 1 - s.spillHint) s.spillHint ≠ 0
  · rw [if_pos hs]
    obtain ⟨hf, hw, hge, hleast⟩ := s.outsideScan_spec hs
    refine .inr ⟨_, h.mem_destinations.2 ⟨hf, hge, hw⟩, rfl, ?_⟩
    rw [if_neg hk]
    intro e he
    obtain ⟨hef, hehint, hew⟩ := h.mem_destinations.1 he
    by_contra hlt
    exact hleast e hehint (by omega) ⟨hef, hew⟩
  rw [if_neg hs]
  rw [not_not] at hs
  have hempty : ∀ p, s.free p = true → s.spillHint ≤ p → inWindow low high p = true := by
    intro p hf hp
    have hpos := h.hint_pos
    have hle := h.free_le hf
    by_contra hout
    exact s.outsideScan_complete (by omega) hs hp (by omega) ⟨hf, by simpa using hout⟩
  have hnone : s.destinations low high = ∅ := by
    ext p
    rw [h.mem_destinations]
    simp only [Finset.notMem_empty, iff_false]
    rintro ⟨hf, hp, hw⟩
    rw [hempty p hf hp] at hw
    contradiction
  -- Both list walks accept generic pages only, and those lie above the hint.
  have hwalk : ∀ p, s.free p = true → nxpGenericFloorPfn ≤ p →
      inWindow low high p = true :=
    fun p hf hfl => hempty p hf (h.hint_low p hf hfl)
  rw [hl.walk_kernel, hl.walk_title]
  have hwk : (kernel.find? (fun p => !inWindow low high p)).getD 0 = 0 := by
    by_contra hne
    obtain ⟨hm, hp⟩ := FreeLists.find_spec hne
    rw [hwalk _ ((hl.free_iff _).2 (.inl hm)) (h.kernel_floor _ (hl.kernel_class _ hm))] at hp
    contradiction
  have hwt : (title.find? (fun p => decide (nxpGenericFloorPfn ≤ p) &&
      !inWindow low high p)).getD 0 = 0 := by
    by_contra hne
    obtain ⟨hm, hp⟩ := FreeLists.find_spec hne
    rw [Bool.and_eq_true, decide_eq_true_eq] at hp
    rw [hwalk _ ((hl.free_iff _).2 (.inr hm)) hp.1] at hp
    exact absurd hp.2 (by simp)
  rw [hwk, hwt]
  exact .inl ⟨hnone, rfl⟩

theorem isFree_iff (h : Inv s) : s.nxkPageSupplyIsFree page = s.free page := by
  unfold nxkPageSupplyIsFree
  split
  · rename_i hc
    symm
    rw [Bool.eq_false_iff]
    intro hf
    have h1 := h.free_pos hf
    have h2 := h.free_le hf
    omega
  · rfl

theorem takeSpecific_spec (h : Inv s) (page : Nat) :
    (s.free page = false ∧ s.nxkPageSupplyTakeSpecific page = (s, false)) ∨
      (s.nxkPageSupplyTakeSpecific page = (s.nxpUnlink page, true) ∧
        Took s (s.nxpUnlink page) page) := by
  unfold nxkPageSupplyTakeSpecific
  rw [h.isFree_iff]
  cases hf : s.free page with
  | true => exact .inr ⟨rfl, h.took hf⟩
  | false => exact .inl ⟨rfl, rfl⟩

end Inv

/-! ## Run takes -/

/-- The page lies in the run of `n` pages at `base`. -/
def inRun (base n page : Nat) : Bool := decide (base ≤ page ∧ page < base + n)

theorem inRun_iff {base n page : Nat} :
    inRun base n page = true ↔ base ≤ page ∧ page < base + n := by
  simp [inRun]

/-- An alignment the mask `~(AlignPages - 1)` is meant for. -/
def PowTwo (alignPages : Nat) : Prop := alignPages = 0 ∨ ∃ k, k ≤ 31 ∧ alignPages = 2 ^ k

/-- `t` is `s` with a run of free pages taken off their lists. -/
structure TookRun (s t : Supply) (base n : Nat) : Prop where
  were_free : ∀ q, inRun base n q = true → s.free q = true
  inv : Inv t
  free : ∀ q, t.free q = (!inRun base n q && s.free q)
  links : ∀ q, s.free q = false → t.links q = s.links q
  links_run : ∀ q, inRun base n q = true → t.links q = 0
  highest : t.highestPfn = s.highestPfn

/-- A page that was taken is a run of one. -/
theorem Took.run {s t : Supply} {page : Nat} (h : Took s t page) : TookRun s t page 1 := by
  have hin : ∀ q, inRun page 1 q = decide (q = page) := fun q => decide_eq_decide.2 (by omega)
  refine ⟨fun q hq => ?_, h.inv, fun q => ?_, h.links, fun q hq => ?_, h.highest⟩
  · rw [hin, decide_eq_true_eq] at hq
    rw [hq, h.was_free]
  · rw [hin, h.free, decide_not]
  · rw [hin, decide_eq_true_eq] at hq
    rw [hq, h.links_self]

namespace Supply

variable {s : Supply}

theorem runMiss_eq_none {base n : Nat} (h : s.runMiss base n = none) :
    ∀ q, inRun base n q = true → s.nxkPageSupplyIsFree q = true := by
  induction n with
  | zero =>
    intro q hq
    rw [inRun_iff] at hq
    omega
  | succ n ih =>
    intro q hq
    rw [runMiss] at h
    by_cases hf : s.nxkPageSupplyIsFree (base + n) = true
    · rw [if_pos hf] at h
      rw [inRun_iff] at hq
      by_cases hqn : q = base + n
      · rwa [hqn]
      · exact ih h q (inRun_iff.2 (by omega))
    · rw [if_neg hf] at h
      contradiction

/-- The page that stops a candidate lies in it and is not free. -/
theorem runMiss_eq_some {base n failed : Nat}
    (h : s.runMiss base n = some failed) :
    inRun base n failed = true ∧ s.nxkPageSupplyIsFree failed = false := by
  induction n with
  | zero => simp [runMiss] at h
  | succ n ih =>
    rw [runMiss] at h
    split_ifs at h with hf
    · obtain ⟨hr, hn⟩ := ih h
      rw [inRun_iff] at hr
      exact ⟨inRun_iff.2 (by omega), hn⟩
    · cases h
      exact ⟨inRun_iff.2 (by omega), by simpa using hf⟩

/-- The test `NxkPageSupplyTakeRun` makes of one base. -/
def runTest (s : Supply) (runPages base : Nat) : Verdict :=
  match s.runMiss base runPages with
  | none => .fits
  | some failed => .rejected failed

theorem runTest_fits {runPages base : Nat} :
    s.runTest runPages base = .fits ↔ s.runMiss base runPages = none := by
  unfold runTest
  cases s.runMiss base runPages <;> simp

theorem runTest_rejected {runPages base failed : Nat}
    (h : s.runTest runPages base = .rejected failed) :
    base ≤ failed ∧ failed < base + runPages ∧ s.nxkPageSupplyIsFree failed = false := by
  unfold runTest at h
  cases hm : s.runMiss base runPages with
  | none => simp [hm] at h
  | some page =>
    simp only [hm, Verdict.rejected.injEq] at h
    subst h
    obtain ⟨hin, hfree⟩ := runMiss_eq_some hm
    exact ⟨(inRun_iff.1 hin).1, (inRun_iff.1 hin).2, hfree⟩

/-- The scan of `NxkPageSupplyTakeRun` is a top-down search. -/
theorem runScan_eq (s : Supply) (r : RunRequest) (fuel base : Nat) :
    s.runScan r fuel base =
      scanDown (s.runTest r.runPages) r.lowPfn r.runPages r.alignPages fuel base := by
  induction fuel generalizing base with
  | zero => rfl
  | succ fuel ih =>
    rw [runScan, scanDown, runTest]
    cases hm : s.runMiss base r.runPages with
    | none => rfl
    | some failed => simp only [ih]

/-- The run of `runPages` pages at `base` lies in the window, after the clamps
both run allocators apply to it. -/
def InRunWindow (s : Supply) (runPages lowPfn highPfn base : Nat) : Prop :=
  1 ≤ base ∧ lowPfn ≤ base ∧ base + runPages ≤ highPfn + 1 ∧
    base + runPages ≤ s.highestPfn + 1

/-- The alignment both run allocators use. -/
def effectiveAlign (alignPages : Nat) : Nat := if alignPages = 0 then 1 else alignPages

/-- What a normalised request says about the bases of its window. -/
structure RunRequest.Normal (s : Supply) (runPages lowPfn highPfn alignPages : Nat)
    (r : RunRequest) : Prop where
  run : r.runPages = runPages
  run_pos : 0 < runPages
  align : r.alignPages = effectiveAlign alignPages
  first_aligned : alignDown r.firstBase r.alignPages = r.firstBase
  first_le : r.firstBase ≤ s.highestPfn
  window : ∀ base, r.lowPfn ≤ base → base ≤ r.firstBase →
    s.InRunWindow runPages lowPfn highPfn base
  low_le : ∀ base, s.InRunWindow runPages lowPfn highPfn base → r.lowPfn ≤ base
  le_first : ∀ base k, r.alignPages = 2 ^ k → k ≤ 32 → 2 ^ k ∣ base →
    s.highestPfn < 2 ^ 32 → s.InRunWindow runPages lowPfn highPfn base → base ≤ r.firstBase

private theorem low_clamp (lowPfn : Nat) :
    1 ≤ (if lowPfn = 0 then 1 else lowPfn) ∧ lowPfn ≤ (if lowPfn = 0 then 1 else lowPfn) ∧
      ((if lowPfn = 0 then 1 else lowPfn) = 1 ∨
        (if lowPfn = 0 then 1 else lowPfn) = lowPfn) := by
  split <;> omega

private theorem high_clamp (highest highPfn : Nat) :
    (if highest < highPfn then highest else highPfn) ≤ highPfn ∧
      (if highest < highPfn then highest else highPfn) ≤ highest ∧
      ((if highest < highPfn then highest else highPfn) = highPfn ∨
        (if highest < highPfn then highest else highPfn) = highest) := by
  split <;> omega

/-- A request is turned down only when its window holds no run at all. -/
theorem runRequest_none {runPages lowPfn highPfn alignPages : Nat}
    (hpos : 0 < runPages) (h : s.runRequest runPages lowPfn highPfn alignPages = none)
    (base : Nat) : ¬s.InRunWindow runPages lowPfn highPfn base := by
  rintro ⟨h1, h2, h3, h4⟩
  have hlow := low_clamp lowPfn
  have hhigh := high_clamp s.highestPfn highPfn
  unfold runRequest at h
  simp only [Nat.pos_iff_ne_zero.1 hpos, if_false] at h
  rw [ite_eq_left_iff] at h
  have hc := Classical.not_not.1 (fun hn => Option.some_ne_none _ (h hn))
  omega

theorem runRequest_spec {runPages lowPfn highPfn alignPages : Nat}
    {r : RunRequest} (h : s.runRequest runPages lowPfn highPfn alignPages = some r) :
    r.Normal s runPages lowPfn highPfn alignPages := by
  unfold runRequest at h
  by_cases h0 : runPages = 0
  · simp [h0] at h
  have hlow := low_clamp lowPfn
  have hhigh := high_clamp s.highestPfn highPfn
  simp only [h0, if_false] at h
  generalize (if lowPfn = 0 then 1 else lowPfn) = low at h hlow
  generalize (if s.highestPfn < highPfn then s.highestPfn else highPfn) = high at h hhigh
  by_cases hc : high < low ∨ high - low + 1 < runPages
  · rw [if_pos hc] at h
    contradiction
  rw [if_neg hc] at h
  cases h
  have hal := alignDown_le (high - runPages + 1) (if alignPages = 0 then 1 else alignPages)
  refine
    { run := rfl
      run_pos := by omega
      align := rfl
      first_aligned := alignDown_alignDown _ _
      first_le := by simp only; omega
      window := ?_
      low_le := ?_
      le_first := ?_ }
  · intro base h1 h2
    simp only at h1 h2
    exact ⟨by omega, by omega, by omega, by omega⟩
  · rintro base ⟨h1, h2, -, -⟩
    simp only
    omega
  · rintro base k hk hk32 hdvd hword ⟨-, -, h3, h4⟩
    simp only at hk ⊢
    rw [hk, alignDown_two_pow (by omega) hk32]
    exact le_roundDown (Nat.two_pow_pos k) hdvd (by omega)

theorem powTwo_effective {alignPages : Nat} (h : PowTwo alignPages) :
    ∃ k, k ≤ 32 ∧ effectiveAlign alignPages = 2 ^ k := by
  rcases h with rfl | ⟨k, hk, rfl⟩
  · exact ⟨0, by decide, rfl⟩
  · refine ⟨k, by omega, ?_⟩
    rw [effectiveAlign, if_neg (Nat.two_pow_pos k).ne']

variable {s : Supply} {runPages lowPfn highPfn alignPages : Nat}

/-- A base of the window, aligned as requested, that passes `test`. -/
def Candidate (s : Supply) (test : Nat → Verdict)
    (runPages lowPfn highPfn alignPages base : Nat) : Prop :=
  0 < runPages ∧ s.InRunWindow runPages lowPfn highPfn base ∧
    alignDown base (effectiveAlign alignPages) = base ∧ test base = .fits

/-- A candidate base of `NxkPageSupplyTakeRun`. -/
def RunFits (s : Supply) (runPages lowPfn highPfn alignPages : Nat) : Nat → Prop :=
  s.Candidate (s.runTest runPages) runPages lowPfn highPfn alignPages

/-- What a search returned: a candidate, and for power-of-two alignments the
highest one. -/
def Highest (fits : Nat → Prop) (alignPages base : Nat) : Prop :=
  fits base ∧ (PowTwo alignPages → ∀ b, fits b → b ≤ base)

/-- The scan from the first base of a request down. -/
def RunRequest.search (r : RunRequest) (test : Nat → Verdict) : Option Nat :=
  scanDown test r.lowPfn r.runPages r.alignPages (r.firstBase + 1) r.firstBase

/-- The search both run allocators make.  `hrej` and `hstop` say what a
rejection rules out; they are needed for power-of-two alignments only. -/
theorem RunRequest.Normal.search {r : RunRequest}
    (hnorm : r.Normal s runPages lowPfn highPfn alignPages) (h : Inv s) (test : Nat → Verdict)
    (hle : ∀ b failed, test b = .rejected failed → failed ≤ b + r.runPages)
    (hrej : ∀ k base failed, r.alignPages = 2 ^ k → test base = .rejected failed →
      r.alignPages ∣ base → failed < base + r.runPages ∧
        ∀ b, b ≤ base → r.alignPages ∣ b → failed < b + r.runPages → test b ≠ .fits)
    (hstop : ∀ k base, r.alignPages = 2 ^ k → test base = .stop → r.alignPages ∣ base →
      r.lowPfn ≤ base → ∀ b, r.lowPfn ≤ b → b ≤ base → r.alignPages ∣ b →
        test b ≠ .fits) :
    (r.search test = none ∧
        (PowTwo alignPages →
          ∀ b, ¬s.Candidate test runPages lowPfn highPfn alignPages b)) ∨
      ∃ base, r.search test = some base ∧
        Highest (s.Candidate test runPages lowPfn highPfn alignPages) alignPages base := by
  have hword : s.highestPfn < 2 ^ 32 := Nat.lt_trans h.highest_lt (by decide)
  have hcomplete : PowTwo alignPages →
      ∀ b, s.Candidate test runPages lowPfn highPfn alignPages b →
      ∃ base, r.search test = some base ∧ b ≤ base := by
    rintro hp b ⟨-, hwin, hal, hfit⟩
    obtain ⟨k, hk, hke⟩ := powTwo_effective hp
    rw [← hnorm.align] at hke hal
    have hfirst := hnorm.first_le
    have hdvd : ∀ x, x < 2 ^ 32 → alignDown x r.alignPages = x → r.alignPages ∣ x := by
      intro x hx hxe
      rw [hke] at hxe ⊢
      rw [alignDown_two_pow hx hk] at hxe
      rw [← hxe]
      exact roundDown_dvd _ _
    have hbword : b < 2 ^ 32 := by
      have := hwin.2.2.2
      have := hnorm.run_pos
      omega
    have hbd := hdvd b hbword hal
    have hble := hnorm.le_first b k hke hk (hke ▸ hbd) hword hwin
    exact scanDown_highest hk hke (fun base failed h1 h2 _ => hrej k base failed hke h1 h2)
      (fun base h1 h2 h3 => hstop k base hke h1 h2 h3) (Nat.lt_succ_self _) (by omega)
      (hdvd _ (by omega) hnorm.first_aligned) (hnorm.low_le b hwin) hble hbd hfit
  cases hs : r.search test with
  | none =>
    refine .inl ⟨rfl, ?_⟩
    intro hp b hb
    obtain ⟨base, hbase, -⟩ := hcomplete hp b hb
    rw [hs] at hbase
    contradiction
  | some base =>
    obtain ⟨h1, h2, h3, h4⟩ := scanDown_sound hle hs
    refine .inr ⟨base, rfl, ⟨hnorm.run_pos, hnorm.window base h1 h2, ?_, h3⟩, ?_⟩
    · rw [← hnorm.align]
      exact h4 hnorm.first_aligned
    · intro hp b hb
      obtain ⟨base', hbase, hle'⟩ := hcomplete hp b hb
      rw [hs, Option.some.injEq] at hbase
      omega

/-- `NxkPageSupplyTakeRun` takes the highest free run. -/
theorem takeRun_search (h : Inv s) (runPages lowPfn highPfn alignPages : Nat) :
    (s.nxkPageSupplyTakeRun runPages lowPfn highPfn alignPages = (s, 0) ∧
        (PowTwo alignPages → ∀ b, ¬s.RunFits runPages lowPfn highPfn alignPages b)) ∨
      ∃ base, Highest (s.RunFits runPages lowPfn highPfn alignPages) alignPages base ∧
        s.nxkPageSupplyTakeRun runPages lowPfn highPfn alignPages =
          (s.unlinkRun base runPages, base) := by
  unfold nxkPageSupplyTakeRun
  cases hr : s.runRequest runPages lowPfn highPfn alignPages with
  | none =>
    refine .inl ⟨rfl, ?_⟩
    rintro - b ⟨hpos, hwin, -, -⟩
    exact runRequest_none hpos hr b hwin
  | some r =>
    have hnorm := runRequest_spec hr
    have hsearch := hnorm.search h (s.runTest r.runPages)
      (fun b failed hb => Nat.le_of_lt (runTest_rejected hb).2.1)
      (fun k base failed _ hb _ => by
        obtain ⟨h1, h2, h3⟩ := runTest_rejected hb
        refine ⟨h2, ?_⟩
        intro b hle _ hlt hfit
        have := runMiss_eq_none (runTest_fits.1 hfit) failed (inRun_iff.2 (by omega))
        rw [h3] at this
        contradiction)
      (fun k base _ hb => by
        unfold runTest at hb
        cases hm : s.runMiss base r.runPages <;> simp [hm] at hb)
    rw [RunRequest.search, ← runScan_eq, hnorm.run] at hsearch
    simp only
    rcases hsearch with ⟨hnone, hno⟩ | ⟨base, hbase, hhigh⟩
    · rw [hnone]
      exact .inl ⟨rfl, hno⟩
    · rw [hbase, hnorm.run]
      exact .inr ⟨base, hhigh, rfl⟩

end Supply

namespace Inv

variable {s : Supply} {base n : Nat}

theorem unlinkRun (h : Inv s) (hf : ∀ q, inRun base n q = true → s.free q = true) :
    TookRun s (s.unlinkRun base n) base n := by
  induction n with
  | zero =>
    have hno : ∀ q, inRun base 0 q = false := by
      intro q
      simp [inRun]
    refine ⟨hf, h, ?_, fun _ _ => rfl, ?_, rfl⟩
    · intro q
      simp [Supply.unlinkRun, hno q]
    · intro q hq
      rw [hno q] at hq
      contradiction
  | succ n ih =>
    have hshorter : ∀ q, inRun base n q = true → inRun base (n + 1) q = true := by
      intro q hq
      rw [inRun_iff] at hq ⊢
      omega
    have ht := ih (fun q hq => hf q (hshorter q hq))
    have hlast : (s.unlinkRun base n).free (base + n) = true := by
      rw [ht.free, hf (base + n) (inRun_iff.2 (by omega))]
      simp [inRun]
    have hstep := ht.inv.took hlast
    have hsplit : ∀ q, inRun base (n + 1) q = (decide (q = base + n) || inRun base n q) := by
      intro q
      simp only [inRun, ← Bool.decide_or]
      congr 1
      simp only [eq_iff_iff]
      omega
    rw [Supply.unlinkRun]
    refine ⟨hf, hstep.inv, ?_, ?_, ?_, hstep.highest.trans ht.highest⟩
    · intro q
      rw [hstep.free, ht.free, hsplit]
      by_cases hq : q = base + n <;> simp [hq]
    · intro q hq
      rw [hstep.links q (by rw [ht.free, hq, Bool.and_false]), ht.links q hq]
    · intro q hq
      by_cases hqn : q = base + n
      · rw [hqn]
        exact hstep.links_self
      · rw [hsplit, decide_eq_false hqn, Bool.false_or] at hq
        rw [hstep.links q (by rw [ht.free, hq]; rfl), ht.links_run q hq]

/-- The pages a candidate check accepts are the free ones. -/
theorem runTest_fits_iff (h : Inv s) {runPages base : Nat} :
    s.runTest runPages base = .fits ↔
      ∀ q, base ≤ q → q < base + runPages → s.free q = true := by
  rw [runTest_fits]
  constructor
  · intro hnone q h1 h2
    rw [← h.isFree_iff]
    exact runMiss_eq_none hnone q (inRun_iff.2 ⟨h1, h2⟩)
  intro hall
  cases hm : s.runMiss base runPages with
  | none => rfl
  | some failed =>
    obtain ⟨hin, hnot⟩ := runMiss_eq_some hm
    rw [inRun_iff] at hin
    rw [h.isFree_iff, hall failed hin.1 hin.2] at hnot
    contradiction

/-- `NxkPageSupplyTakeRun` takes a run of free pages inside the window, or
nothing. -/
theorem takeRun_spec (h : Inv s) (runPages lowPfn highPfn alignPages : Nat) :
    (s.nxkPageSupplyTakeRun runPages lowPfn highPfn alignPages = (s, 0)) ∨
      ∃ t base, s.nxkPageSupplyTakeRun runPages lowPfn highPfn alignPages = (t, base) ∧
        TookRun s t base runPages ∧ 0 < runPages ∧
        s.InRunWindow runPages lowPfn highPfn base ∧
        alignDown base (effectiveAlign alignPages) = base := by
  rcases takeRun_search h runPages lowPfn highPfn alignPages with
    ⟨hnone, -⟩ | ⟨base, ⟨⟨hpos, hwin, halign, hfits⟩, -⟩, htake⟩
  · exact .inl hnone
  · refine .inr ⟨_, base, htake, h.unlinkRun fun q hq => ?_, hpos, hwin, halign⟩
    exact h.runTest_fits_iff.1 hfits q (inRun_iff.1 hq).1 (inRun_iff.1 hq).2

end Inv

/-- Taking a generic page leaves one less. -/
theorem Took.genericAvail {s t : Supply} {page : Nat} (htook : Took s t page) (h : Inv s) (hfl : nxpGenericFloorPfn ≤ page) :
    t.genericAvail + 1 = s.genericAvail := by
  have hset : t.genericPages = s.genericPages.erase page := by
    ext p
    rw [htook.inv.mem_genericPages, Finset.mem_erase, h.mem_genericPages, htook.free,
      Bool.and_eq_true, decide_eq_true_eq, and_assoc]
  have hmem := h.mem_genericPages.2 ⟨htook.was_free, hfl⟩
  rw [htook.inv.generic, h.generic, hset, Finset.card_erase_add_one hmem]

theorem setOwner_genericAvail (s : Supply) (page pteVa : Nat) :
    (s.nxkPageSupplySetOwner page pteVa).genericAvail = s.genericAvail := by
  unfold nxkPageSupplySetOwner
  split <;> rfl

end Roswell.Ports.PageSupply
