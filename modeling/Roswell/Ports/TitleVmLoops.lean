import Roswell.Ports.TitleVmFrames

/-!
# Commit, rollback and decommit

The page loops of `NxvCommitRange`, `NxvDecommitRange` and
`NxVmProtectVirtualMemory`.  Addresses in the loops are page aligned, so every
lemma speaks about page numbers: the loop at `p` with end `e` works on the
pages `p ≤ q < e`.

During a commit the pages mapped so far carry the transient mark, and they are
exactly the pages that were empty before the call.  That is what makes the
rollback drop this call's pages and no others.

`NxvCommitRange` takes a page for every empty entry of its range and one for
every page table that is missing.  Whether it succeeds, and the page at which it
gives up, follow from a count against the generic pages of the supply.
-/

namespace Roswell.Ports.TitleVm

open Verified.Word PageSupply PageTables Function

/-- The page lies in `[p, e)`. -/
@[reducible] def Between (p e q : Nat) : Prop := p ≤ q ∧ q < e

variable {s s₁ t : Vm} {p e q n bits : Nat}

theorem Between.nonempty (hq : Between p e q) : p < e := Nat.lt_of_le_of_lt hq.1 hq.2

theorem Between.tail (hq : Between (p + 1) e q) : Between p e q := ⟨Nat.le_of_succ_le hq.1, hq.2⟩

theorem Between.rest (hq : Between p e q) (hqp : q ≠ p) : Between (p + 1) e q :=
  ⟨Nat.lt_of_le_of_ne hq.1 hqp.symm, hq.2⟩

namespace Changed

/-- A loop with no page left. -/
theorem none (h : Frames s) (he : e ≤ p) {R : Nat → Prop} :
    Changed (Between p e) s s ∧ ∀ q, Between p e q → R q :=
  ⟨.refl h, fun _ hq => absurd hq.nonempty (Nat.not_lt.2 he)⟩

/-- A loop that changes the first page and goes on with the others. -/
theorem cons {R : Nat → Nat → Prop} (hlt : p < e) (hp : TitlePage p) (hch : Changed (· = p) s s₁)
    (hfirst : R p (s₁.mem.pt p)) (hrest : Changed (Between (p + 1) e) s₁ t ∧
      ∀ q, Between (p + 1) e q → R q (t.mem.pt q)) :
    Changed (Between p e) s t ∧ ∀ q, Between p e q → R q (t.mem.pt q) := by
  obtain ⟨hch', hall⟩ := hrest
  refine ⟨(hch.mono ?_).trans (hch'.mono fun _ => Between.tail), fun q hq => ?_⟩
  · rintro q rfl
    exact ⟨Nat.le_refl _, hlt⟩
  · by_cases hqp : q = p
    · rw [hqp, hch'.other p hp fun hbt => Nat.not_succ_le_self p hbt.1]
      exact hfirst
    · exact hall q (hq.rest hqp)

end Changed

theorem reprotect_pt (s : Vm) (p bits : Nat) :
    (s.reprotect (p * pageSize) bits).mem.pt =
      update s.mem.pt p (frameBits (s.mem.pt p) ||| bits) := by
  rw [Vm.reprotect, Vm.setPte, Vm.nxvPte, pteIndex_mul]
  rfl

/-- What the commit of one page leaves: the page is there, with the mark if it is new, and the
pages for it are taken. -/
structure PageCommitted (s t : Vm) (p bits : Nat) : Prop where
  mapped : t.mem.pt p ≠ 0
  marked : fresh (t.mem.pt p) = true ↔ s.mem.pt p = 0
  kept : s.mem.pt p ≠ 0 → t.mem.pt p = frameBits (s.mem.pt p) ||| bits
  avail : t.mem.supply.genericAvail + s.framesAt p = s.mem.supply.genericAvail
  tabled : Tabled s t p

/-- The entry of a page is not that of a page table. -/
theorem Tabled.update (h : Tabled s s₁ p) (hp : TitlePage p) {x : Nat}
    (hpt : t.mem.pt = Function.update s₁.mem.pt p x) : Tabled s t p := by
  refine ⟨?_, fun k hk hlt => ?_⟩
  · rw [hpt, update_of_ne (by omega)]
    exact h.own
  · rw [hpt, update_of_ne (by omega)]
    exact h.other k hk hlt

namespace Frames

theorem reprotect (h : Frames s) (hp : TitlePage p) (hne : s.mem.pt p ≠ 0)
    (hb : EntryBits bits) :
    Changed (· = p) s (s.reprotect (p * pageSize) bits) ∧
      (s.reprotect (p * pageSize) bits).mem.pt p ≠ 0 ∧
      fresh ((s.reprotect (p * pageSize) bits).mem.pt p) = false := by
  have hpte : s.nxvPte (p * pageSize) = s.mem.pt p := by rw [Vm.nxvPte, pteIndex_mul]
  have hfr := frame_reprotect (h.entry_lt p hp) hb.lt
  obtain ⟨hch, hself, hne'⟩ := h.rewrite hp hne hfr (reprotect_lt hb.lt)
  rw [Vm.reprotect, hpte]
  refine ⟨hch, ?_, ?_⟩
  · rw [hself]
    exact hne'
  · rw [hself]
    exact fresh_reprotect hb

/-- One round of the commit loop.  It succeeds exactly when the supply has the pages for it. -/
theorem commitPage (h : Frames s) (hp : TitlePage p) (hb : EntryBits bits) {ok : Bool}
    (ht : s.commitPage (p * pageSize) bits = (t, ok)) :
    Changed (· = p) s t ∧ (ok = true ↔ s.framesAt p ≤ s.mem.supply.genericAvail) ∧
      (ok = true → PageCommitted s t p bits) ∧ (ok = false → t.mem.pt p = s.mem.pt p) := by
  unfold Vm.commitPage at ht
  rcases hs₁ : s.nxvEnsurePageTable (p * pageSize) with ⟨s₁, ok₁⟩
  obtain ⟨hch₁, henough, htable⟩ := h.ensure hp hs₁
  have hch₁' : Changed (· = p) s s₁ := hch₁.mono (fun _ hf => hf.elim)
  have hpt₁ : s₁.mem.pt p = s.mem.pt p := hch₁.other p hp id
  have hpte : s₁.nxvPte (p * pageSize) = s.mem.pt p := by rw [Vm.nxvPte, pteIndex_mul, hpt₁]
  have hcost : s.framesAt p = s.tableAt p + if s.mem.pt p = 0 then 1 else 0 := rfl
  rw [hs₁] at ht
  cases ok₁ with
  | false =>
    cases ht
    have hno := mt henough.2 (by decide)
    exact ⟨hch₁', iff_of_false (by decide) (by omega), fun hc => by contradiction, fun _ => hpt₁⟩
  | true =>
    obtain ⟨havail, htabled⟩ := htable rfl
    simp only [hpte] at ht
    by_cases hne : s.mem.pt p ≠ 0
    · rw [if_pos hne] at ht
      cases ht
      obtain ⟨hch₂, hne₂, hfr₂⟩ := hch₁.frames.reprotect hp (by rwa [hpt₁]) hb
      have hpt := reprotect_pt s₁ p bits
      rw [if_neg hne] at hcost
      refine ⟨hch₁'.trans hch₂, iff_of_true rfl (by omega),
        fun _ => ⟨hne₂, ?_, fun _ => ?_, ?_, htabled.update hp hpt⟩, fun hc => by contradiction⟩
      · rw [hfr₂]
        exact iff_of_false (by decide) hne
      · rw [hpt, update_self, hpt₁]
      · show s₁.mem.supply.genericAvail + _ = _
        omega
    · rw [if_neg hne] at ht
      rw [not_not] at hne
      rw [if_pos hne] at hcost
      rcases hch₁.frames.supply.takeAny_spec with ⟨hzero, hnone⟩ | ⟨htook, hfl⟩
      · rw [hnone] at ht
        cases ht
        exact ⟨hch₁', iff_of_false (by decide) (by omega), fun hc => by contradiction,
          fun _ => hpt₁⟩
      have hone := htook.genericAvail hch₁.frames.supply hfl
      rcases htake : s₁.mem.supply.nxkPageSupplyTakeAny with ⟨supply, pfn⟩
      rw [htake] at htook hone ht
      simp only at htook hone ht
      rw [if_neg (hch₁.frames.supply.free_pos htook.was_free), Prod.mk.injEq] at ht
      obtain ⟨ht, rfl⟩ := ht
      simp only [Vm.setPte, Machine.setEntry, pteIndex_mul] at ht
      obtain ⟨hch₂, hself, hne₂⟩ := hch₁.frames.map hp (hpt₁.trans hne)
        (by rw [Vm.nxvPde, pdeIndex_mul]; exact htabled.own) htook hb.marked_lt ht.symm
      refine ⟨hch₁'.trans hch₂, iff_of_true rfl (by omega), fun _ => ⟨hne₂, ?_,
        (absurd hne), ?_, htabled.update hp (by rw [← ht])⟩, fun hc => by contradiction⟩
      · rw [hself, fresh_marked]
        exact iff_of_true rfl hne
      · rw [← ht]
        rw [setOwner_genericAvail]
        omega

end Frames

/-! ## A range of pages -/

/-- The pages a commit of `[p, e)` takes: one for each empty entry and one for
each span without a page table. -/
def Vm.framesFor (s : Vm) (p e : Nat) : Nat :=
  ((Finset.Ico p e).filter (fun q => s.mem.pt q = 0)).card +
    (((Finset.Ico p e).image (· / 1024)).filter
      (fun k => present (s.mem.pt (0xC0000 + k)) = false)).card

theorem framesFor_of_le (s : Vm) (h : e ≤ p) : s.framesFor p e = 0 := by
  simp [Vm.framesFor, Finset.Ico_eq_empty_of_le h]

theorem framesFor_mono (s : Vm) {e e' : Nat} (h : e ≤ e') :
    s.framesFor p e ≤ s.framesFor p e' := by
  have hsub := Finset.Ico_subset_Ico_right (a := p) h
  refine Nat.add_le_add ?_ ?_
  · exact Finset.card_le_card (Finset.filter_subset_filter _ hsub)
  · exact Finset.card_le_card (Finset.filter_subset_filter _ (Finset.image_subset_image hsub))

theorem framesFor_one (s : Vm) (p : Nat) : s.framesFor p (p + 1) = s.framesAt p := by
  unfold Vm.framesFor Vm.framesAt
  rw [Nat.Ico_succ_singleton, Finset.image_singleton, Finset.filter_singleton,
    Finset.filter_singleton, Nat.add_comm]
  congr 1
  · split <;> rfl
  · split <;> rfl

/-- The first page of a range, and the rest once it has been worked on. -/
theorem framesFor_succ (hlt : p < e) (he : e ≤ 0x7FFE0) (htab : Tabled s t p)
    (hsame : ∀ q, Between (p + 1) e q → t.mem.pt q = s.mem.pt q) :
    s.framesFor p e = s.framesAt p + t.framesFor (p + 1) e := by
  unfold Vm.framesFor Vm.framesAt
  have hrange : Finset.Ico p e = insert p (Finset.Ico (p + 1) e) := by
    ext q
    rw [Finset.mem_insert, Finset.mem_Ico, Finset.mem_Ico]
    omega
  have hempty : ((Finset.Ico p e).filter (fun q => s.mem.pt q = 0)).card =
      (if s.mem.pt p = 0 then 1 else 0) +
        ((Finset.Ico (p + 1) e).filter (fun q => t.mem.pt q = 0)).card := by
    have hrest : (Finset.Ico (p + 1) e).filter (fun q => s.mem.pt q = 0) =
        (Finset.Ico (p + 1) e).filter (fun q => t.mem.pt q = 0) := by
      refine Finset.filter_congr ?_
      intro q hq
      rw [Finset.mem_Ico] at hq
      rw [hsame q ⟨hq.1, hq.2⟩]
    rw [hrange, Finset.filter_insert, ← hrest]
    split_ifs with h0
    · rw [Finset.card_insert_of_notMem (by simp), Nat.add_comm]
    · rw [Nat.zero_add]
  have htables : (((Finset.Ico p e).image (· / 1024)).filter
        (fun k => present (s.mem.pt (0xC0000 + k)) = false)).card =
      (if present (s.mem.pt (0xC0000 + p / 1024)) = false then 1 else 0) +
        (((Finset.Ico (p + 1) e).image (· / 1024)).filter
          (fun k => present (t.mem.pt (0xC0000 + k)) = false)).card := by
    -- The span of `p` is counted once, whether or not the range goes on in it.
    have hrest : ((Finset.Ico (p + 1) e).image (· / 1024)).filter
          (fun k => present (t.mem.pt (0xC0000 + k)) = false) =
        (((Finset.Ico p e).image (· / 1024)).filter
          (fun k => present (s.mem.pt (0xC0000 + k)) = false)).erase (p / 1024) := by
      ext k
      rw [hrange, Finset.image_insert, Finset.mem_erase, Finset.mem_filter, Finset.mem_filter,
        Finset.mem_insert]
      by_cases hk : k = p / 1024
      · rw [hk, htab.own]
        simp
      · simp only [hk, false_or, ne_eq, not_false_eq_true, true_and]
        refine and_congr_right ?_
        intro hmem
        obtain ⟨q, hq, rfl⟩ := Finset.mem_image.1 hmem
        rw [Finset.mem_Ico] at hq
        rw [htab.other _ hk (by omega)]
    rw [hrest]
    by_cases hpde : present (s.mem.pt (0xC0000 + p / 1024)) = false
    · have hmem : p / 1024 ∈ ((Finset.Ico p e).image (· / 1024)).filter
          (fun k => present (s.mem.pt (0xC0000 + k)) = false) := by
        rw [Finset.mem_filter, Finset.mem_image]
        exact ⟨⟨p, Finset.mem_Ico.2 ⟨Nat.le_refl _, hlt⟩, rfl⟩, hpde⟩
      rw [if_pos hpde, Nat.add_comm, Finset.card_erase_add_one hmem]
    · rw [if_neg hpde, Nat.zero_add, Finset.erase_eq_of_notMem]
      exact fun hmem => hpde (Finset.mem_filter.1 hmem).2
  omega

/-! ## The commit loop -/

/-- The pages `[p, p')` after a commit loop went over them: all are committed,
and the marked ones are those that were empty. -/
def Marked (s t : Vm) (p p' : Nat) : Prop :=
  ∀ q, Between p p' q → t.mem.pt q ≠ 0 ∧ (fresh (t.mem.pt q) = true ↔ s.mem.pt q = 0)

/-- The commit loop succeeds exactly when the supply has the pages for the whole
range; it gives up at the first page that the supply does not reach, and has
rewritten the entries that were there before up to it. -/
theorem commitLoop_spec (hb : EntryBits bits) (he : e ≤ 0x7FFE0) (h : Frames s)
    (hp : 0x10 ≤ p) (hpe : p ≤ e) (hn : e - p = n) {va : Nat} {ok : Bool}
    (ht : commitLoop (e * pageSize) bits n s (p * pageSize) = (t, va, ok)) :
    (ok = true ↔ s.framesFor p e ≤ s.mem.supply.genericAvail) ∧
      ∃ p', va = p' * pageSize ∧ p ≤ p' ∧ p' ≤ e ∧ Changed (Between p p') s t ∧
        Marked s t p p' ∧ (ok = true → p' = e) ∧
        (∀ q, Between p p' q → s.mem.pt q ≠ 0 → t.mem.pt q = frameBits (s.mem.pt q) ||| bits) ∧
        ∀ q, Between p e q →
          (q < p' ↔ s.framesFor p (q + 1) ≤ s.mem.supply.genericAvail) := by
  induction n generalizing s p with
  | zero =>
    cases ht
    have hnone := framesFor_of_le t (show e ≤ p by omega)
    exact ⟨iff_of_true rfl (by omega), p, rfl, Nat.le_refl _, hpe, Changed.refl h,
      fun _ hq => absurd hq.nonempty (Nat.lt_irrefl p), fun _ => by omega,
      fun _ hq => absurd hq.nonempty (Nat.lt_irrefl p), fun _ hq => by omega⟩
  | succ n ih =>
    have hlt : p < e := by omega
    have htitle : TitlePage p := by omega
    rw [commitLoop, if_pos (page_lt.2 hlt), next_page htitle.lt] at ht
    rcases hs₁ : s.commitPage (p * pageSize) bits with ⟨s₁, ok₁⟩
    obtain ⟨hch, hok, hyes, hno⟩ := h.commitPage htitle hb hs₁
    have hfirst := framesFor_one s p
    rw [hs₁] at ht
    cases ok₁ with
    | false =>
      cases ht
      have hsame : Changed (Between p p) s t := by
        refine ⟨hch.frames, hch.regions, hch.reserved, ?_, hch.outside⟩
        intro q hq _
        by_cases hqp : q = p
        · rw [hqp]
          exact hno rfl
        · exact hch.other q hq hqp
      have hshort : ∀ e', p < e' → ¬s.framesFor p e' ≤ s.mem.supply.genericAvail := by
        intro e' hlt'
        have hle := framesFor_mono (p := p) s (show p + 1 ≤ e' by omega)
        have := mt hok.2 (by decide)
        omega
      exact ⟨iff_of_false (by decide) (hshort e hlt), p, rfl, Nat.le_refl _, hpe, hsame,
        fun _ hq => absurd hq.nonempty (Nat.lt_irrefl p), fun hc => by contradiction,
        fun _ hq => absurd hq.nonempty (Nat.lt_irrefl p),
        fun q hq => iff_of_false (by omega) (hshort _ (by omega))⟩
    | true =>
      have hpage := hyes rfl
      have havail := hpage.avail
      have hsame : ∀ q, Between (p + 1) e q → s₁.mem.pt q = s.mem.pt q :=
        fun q hq => hch.other q (by omega) (by omega)
      have hsplit : ∀ e', p < e' → e' ≤ e →
          s.framesFor p e' = s.framesAt p + s₁.framesFor (p + 1) e' := by
        intro e' h1 h2
        exact framesFor_succ h1 (by omega) hpage.tabled (fun q hq => hsame q (by omega))
      obtain ⟨hrest, p', rfl, h1, h2, hch', hmark, hdone, hkeep, hstop⟩ :=
        ih hch.frames (by omega) (by omega) (by omega) ht
      obtain ⟨hall, hpages⟩ := Changed.cons
        (R := fun q x => x ≠ 0 ∧ (fresh x = true ↔ s.mem.pt q = 0) ∧
          (s.mem.pt q ≠ 0 → x = frameBits (s.mem.pt q) ||| bits)) h1 htitle hch
        ⟨hpage.mapped, hpage.marked, hpage.kept⟩ ⟨hch', fun q hq => by
          rw [← hsame q (by omega)]
          exact ⟨(hmark q hq).1, (hmark q hq).2, hkeep q hq⟩⟩
      refine ⟨?_, p', rfl, by omega, h2, hall, fun q hq => ⟨(hpages q hq).1, (hpages q hq).2.1⟩,
        hdone, fun q hq => (hpages q hq).2.2, ?_⟩
      · rw [hrest, hsplit e hlt (Nat.le_refl _)]
        omega
      · intro q hq
        by_cases hqp : q = p
        · rw [hqp, hfirst]
          exact iff_of_true (by omega) (hok.1 rfl)
        · rw [hstop q (by omega), hsplit (q + 1) (by omega) (by omega)]
          omega

/-- Taking the marks off. -/
theorem clearFresh_spec (he : e ≤ 0x7FFE0) (h : Frames s) (hp : 0x10 ≤ p) (hn : e - p = n) :
    Changed (Between p e) s (clearFresh (e * pageSize) n s (p * pageSize)) ∧
      ∀ q, Between p e q →
        fresh ((clearFresh (e * pageSize) n s (p * pageSize)).mem.pt q) = false ∧
          (s.mem.pt q ≠ 0 → (clearFresh (e * pageSize) n s (p * pageSize)).mem.pt q ≠ 0) := by
  induction n generalizing s p with
  | zero => exact Changed.none h (by omega)
  | succ n ih =>
    have hlt : p < e := by omega
    have htitle : TitlePage p := by omega
    rw [clearFresh, if_pos (page_lt.2 hlt), next_page htitle.lt]
    obtain ⟨s₁, hs₁⟩ : ∃ s₁, (if flagOn (s.nxvPte (p * pageSize)) nxvPteFresh = true then
      s.setPte (p * pageSize) (s.nxvPte (p * pageSize) &&& 0xFFFFFBFF) else s) = s₁ :=
      ⟨_, rfl⟩
    have hstep : Changed (· = p) s s₁ ∧ fresh (s₁.mem.pt p) = false ∧
        (s.mem.pt p ≠ 0 → s₁.mem.pt p ≠ 0) := by
      rw [← hs₁]
      have hpte : s.nxvPte (p * pageSize) = s.mem.pt p := by rw [Vm.nxvPte, pteIndex_mul]
      rw [hpte]
      split_ifs with hf
      · have hne : s.mem.pt p ≠ 0 := fun e0 => by
          rw [e0] at hf
          contradiction
        obtain ⟨hch, hself, hne'⟩ := h.rewrite htitle hne (frame_and (h.entry_lt p htitle) rfl)
          (Nat.and_lt_two_pow _ (show 0xFFFFFBFF < 2 ^ 32 by decide))
        rw [hself]
        exact ⟨hch, fresh_cleared _, fun _ => hne'⟩
      · exact ⟨Changed.refl h, by simpa [fresh] using hf, id⟩
    rw [hs₁]
    obtain ⟨hch', hclear⟩ := ih hstep.1.frames (by omega) (show e - (p + 1) = n by omega)
    refine Changed.cons (R := fun q x => fresh x = false ∧ (s.mem.pt q ≠ 0 → x ≠ 0)) hlt htitle
      hstep.1 hstep.2 ⟨hch', fun q hq => ?_⟩
    rw [← hstep.1.other q (by omega) (by omega)]
    exact hclear q hq

/-! ## Rollback -/

/-- The rollback loop over `[p, p')` drops the marked pages and leaves the
others alone. -/
theorem rollback_spec (h : Frames s) (hp : 0x10 ≤ p) (he : p + n ≤ 0x7FFE0) :
    Changed (Between p (p + n)) s (rollback n s ((p + n) * pageSize)) ∧
      ∀ q, Between p (p + n) q →
        (rollback n s ((p + n) * pageSize)).mem.pt q =
          if fresh (s.mem.pt q) then 0 else s.mem.pt q := by
  induction n generalizing s with
  | zero => exact ⟨Changed.refl h, fun _ hq => absurd hq.nonempty (Nat.lt_irrefl p)⟩
  | succ n ih =>
    have htitle : TitlePage (p + n) := by omega
    rw [rollback, ← Nat.add_assoc, prev_page htitle.lt]
    obtain ⟨s₁, hs₁⟩ : ∃ s₁, (if present (s.nxvPde ((p + n) * pageSize)) = true ∧
      flagOn (s.nxvPte ((p + n) * pageSize)) nxvPteFresh = true then
      s.dropPage ((p + n) * pageSize) else s) = s₁ := ⟨_, rfl⟩
    have hstep : Changed (· = p + n) s s₁ ∧
        s₁.mem.pt (p + n) =
          if fresh (s.mem.pt (p + n)) then 0 else s.mem.pt (p + n) := by
      have hpte : s.nxvPte ((p + n) * pageSize) = s.mem.pt (p + n) := by
        rw [Vm.nxvPte, pteIndex_mul]
      rw [← hs₁, hpte]
      by_cases hf : fresh (s.mem.pt (p + n)) = true
      · have hne : s.mem.pt (p + n) ≠ 0 := fun e0 => by
          rw [e0] at hf
          contradiction
        rw [if_pos ⟨h.table_present htitle hne, hf⟩, if_pos hf]
        exact h.drop htitle hne
      · rw [if_neg (fun hc => hf hc.2), if_neg hf]
        exact ⟨Changed.refl h, rfl⟩
    rw [hs₁]
    obtain ⟨hch', hdrop⟩ := ih hstep.1.frames (by omega)
    refine ⟨(hstep.1.mono ?_).trans (hch'.mono ?_), ?_⟩
    · rintro q rfl
      exact ⟨by omega, by omega⟩
    · intro q hq
      omega
    intro q hq
    by_cases hqn : q = p + n
    · rw [hch'.other q (hqn ▸ htitle) (by omega), hqn]
      exact hstep.2
    · have h1 := hq.1
      have hq' : TitlePage q := by omega
      rw [hdrop q ⟨h1, by omega⟩, hstep.1.other q hq' hqn]

/-- `NxvCommitRange` over `[p, e)`.  No mark is left behind.  A successful commit leaves no page
empty; a failed one leaves each page that was committed before the page it gave up at with the
new protection, and the others as they were. -/
theorem Frames.commitRange (h : Frames s) (hb : EntryBits bits) (hp : 0x10 ≤ p)
    (hpe : p ≤ e) (he : e ≤ 0x7FFE0) (hnf : ∀ q, Between p e q → fresh (s.mem.pt q) = false)
    {status : Status}
    (ht : s.nxvCommitRange (p * pageSize) (e * pageSize) bits = (t, status)) :
    Changed (Between p e) s t ∧ (∀ q, Between p e q → fresh (t.mem.pt q) = false) ∧
      (status = .success → ∀ q, Between p e q → t.mem.pt q ≠ 0) ∧
      (status = .success ↔ s.framesFor p e ≤ s.mem.supply.genericAvail) ∧
      (status ≠ .success → t.committed = s.committed ∧
        ∀ q, Between p e q → t.mem.pt q =
          if s.mem.pt q ≠ 0 ∧ s.framesFor p (q + 1) ≤ s.mem.supply.genericAvail then
            frameBits (s.mem.pt q) ||| bits
          else s.mem.pt q) := by
  unfold Vm.nxvCommitRange at ht
  rw [pageSpan_mul] at ht
  rcases hloop : commitLoop (e * pageSize) bits (e - p) s (p * pageSize) with ⟨s₁, va, ok⟩
  obtain ⟨hok, p', rfl, h1, h2, hch, hmark, hdone, hkeep, hstop⟩ :=
    commitLoop_spec hb he h hp hpe rfl hloop
  rw [hloop] at ht
  cases ok with
  | true =>
    cases ht
    cases hdone rfl
    obtain ⟨hch', hclear⟩ := clearFresh_spec he hch.frames hp rfl
    exact ⟨hch.trans hch', fun q hq => (hclear q hq).1,
      fun _ q hq => (hclear q hq).2 (hmark q hq).1, iff_of_true rfl (hok.1 rfl),
      (absurd rfl)⟩
  | false =>
    simp only [pageSpan_mul] at ht
    cases ht
    obtain ⟨n, rfl⟩ : ∃ n, p' = p + n := ⟨p' - p, by omega⟩
    rw [Nat.add_sub_cancel_left]
    obtain ⟨hch', hdrop⟩ := rollback_spec (n := n) hch.frames hp (by omega)
    have hboth := (hch.trans hch').mono (Q := Between p e) (fun q hq => by omega)
    have hvalue : ∀ q, Between p e q →
        (rollback n s₁ ((p + n) * pageSize)).mem.pt q =
          if s.mem.pt q ≠ 0 ∧ s.framesFor p (q + 1) ≤ s.mem.supply.genericAvail then
            frameBits (s.mem.pt q) ||| bits
          else s.mem.pt q := by
      intro q hq
      have hreach := hstop q hq
      by_cases hin : Between p (p + n) q
      · obtain ⟨-, hfresh⟩ := hmark q hin
        rw [hdrop q hin]
        by_cases h0 : s.mem.pt q = 0
        · rw [if_pos (hfresh.2 h0), if_neg (fun hc => hc.1 h0), h0]
        · rw [if_neg (mt hfresh.1 h0), if_pos ⟨h0, hreach.1 hin.2⟩, hkeep q hin h0]
      · rw [if_neg (fun hc => hin ⟨hq.1, hreach.2 hc.2⟩)]
        exact (hch.trans hch').other q (by omega) hin
    refine ⟨hboth, fun q hq => ?_, nofun, iff_of_false nofun (mt hok.2 (by decide)),
      fun _ => ⟨?_, hvalue⟩⟩
    · rw [hvalue q hq]
      split_ifs
      · exact fresh_reprotect hb
      · exact hnf q hq
    · rw [hboth.frames.count, h.count, committedPages_congr]
      intro q hq
      by_cases hbt : Between p e q
      · rw [hvalue q hbt]
        split_ifs with hc
        · refine iff_of_true (ne_zero_of_frame ?_) hc.1
          rw [frame_reprotect (h.entry_lt q hq) hb.lt]
          exact (h.owned q hq hc.1).pos.ne'
        · exact Iff.rfl
      · rw [hboth.other q hq hbt]

/-! ## Decommit -/

/-- The address after a span without a page table. -/
theorem skip_span (hp : p < 0xFFC00) :
    wadd (wsub (roundUp (wadd (p * pageSize) 1) 0x400000) pageSize) pageSize =
      (p / 1024 + 1) * 1024 * pageSize := by
  have hup : roundUp (wadd (p * pageSize) 1) 0x400000 = (p / 1024 + 1) * 1024 * pageSize := by
    unfold pageSize
    rw [wadd_of_lt (by omega), roundUp_eq (by omega), roundDown]
    omega
  rw [hup]
  unfold pageSize
  rw [wsub_of_le (by omega) (by omega), wadd_of_lt (by omega)]
  omega

/-- The decommit loop over `[p, e)` leaves no entry behind. -/
theorem decommitLoop_spec (he : e ≤ 0x7FFE0) (h : Frames s) (hp : 0x10 ≤ p) (hn : e - p ≤ n) :
    Changed (Between p e) s (decommitLoop (e * pageSize) n s (p * pageSize)) ∧
      ∀ q, Between p e q → (decommitLoop (e * pageSize) n s (p * pageSize)).mem.pt q = 0 := by
  induction n generalizing s p with
  | zero => exact Changed.none h (by omega)
  | succ n ih =>
    rw [decommitLoop]
    by_cases hlt : p < e
    · have htitle : TitlePage p := by omega
      have hpte : s.nxvPte (p * pageSize) = s.mem.pt p := by rw [Vm.nxvPte, pteIndex_mul]
      rw [if_pos (page_lt.2 hlt), hpte]
      simp only
      rw [skip_span (Nat.lt_trans htitle.lt (by decide)), next_page htitle.lt]
      -- One page done, the loop goes on at the next.
      have hnext : ∀ {s₁ : Vm}, Changed (· = p) s s₁ → s₁.mem.pt p = 0 →
          Changed (Between p e) s
              (decommitLoop (e * pageSize) n s₁ ((p + 1) * pageSize)) ∧
            ∀ q, Between p e q →
              (decommitLoop (e * pageSize) n s₁ ((p + 1) * pageSize)).mem.pt q = 0 := by
        intro s₁ hch h0
        exact Changed.cons (R := fun _ x => x = 0) hlt htitle hch h0
          (ih hch.frames (by omega) (by omega))
      split
      · next hpde =>
        rw [Vm.nxvPde, pdeIndex_mul] at hpde
        obtain ⟨hch', hzero⟩ := ih h (show 0x10 ≤ (p / 1024 + 1) * 1024 by omega)
          (by omega)
        refine ⟨hch'.mono ?_, ?_⟩
        · intro q hq
          omega
        intro q hq
        have h2 := hq.2
        by_cases hin : q < (p / 1024 + 1) * 1024
        · have hspan : q / 1024 = p / 1024 := by omega
          rw [hch'.other q (by omega) (by omega)]
          exact h.table q (by omega) (by rw [hspan]; exact hpde)
        · exact hzero q ⟨by omega, h2⟩
      · next hpde =>
        split_ifs with hne
        · exact hnext (h.drop htitle hne).1 (h.drop htitle hne).2
        · exact hnext (Changed.refl h) (not_not.1 hne)
    · rw [if_neg (fun hc => hlt (page_lt.1 hc))]
      exact Changed.none h (Nat.le_of_not_lt hlt)

theorem Frames.decommitRange (h : Frames s) (hp : 0x10 ≤ p) (he : e ≤ 0x7FFE0) :
    Changed (Between p e) s (s.nxvDecommitRange (p * pageSize) (e * pageSize)) ∧
      ∀ q, Between p e q →
        (s.nxvDecommitRange (p * pageSize) (e * pageSize)).mem.pt q = 0 := by
  rw [Vm.nxvDecommitRange, pageSpan_mul]
  exact decommitLoop_spec he h hp (Nat.le_refl _)

/-! ## Protect -/

theorem protectLoop_spec (hb : EntryBits bits) (he : e ≤ 0x7FFE0) (h : Frames s)
    (hp : 0x10 ≤ p) (hn : e - p = n) (hne : ∀ q, Between p e q → s.mem.pt q ≠ 0) :
    Changed (Between p e) s (protectLoop (e * pageSize) bits n s (p * pageSize)) ∧
      ∀ q, Between p e q →
        fresh ((protectLoop (e * pageSize) bits n s (p * pageSize)).mem.pt q) = false := by
  induction n generalizing s p with
  | zero => exact Changed.none h (by omega)
  | succ n ih =>
    have hlt : p < e := by omega
    have htitle : TitlePage p := by omega
    rw [protectLoop, if_pos (page_lt.2 hlt), next_page htitle.lt]
    obtain ⟨hch, -, hfr⟩ := h.reprotect htitle (hne p ⟨Nat.le_refl _, hlt⟩) hb
    refine Changed.cons (R := fun _ x => fresh x = false) hlt htitle hch hfr
      (ih hch.frames (by omega) (by omega) fun q hq => ?_)
    rw [hch.other q (by omega) (by omega)]
    exact hne q hq.tail

/-- The page at `va` is committed. -/
def Vm.Committed (s : Vm) (va : Nat) : Prop := present (s.nxvPde va) = true ∧ s.nxvPte va ≠ 0

/-- The validation loop checks the pages the update loop rewrites. -/
theorem allCommitted_iff (he : e < 2 ^ 20) (hn : e - p = n) :
    allCommitted s (e * pageSize) n (p * pageSize) = true ↔
      ∀ q, Between p e q → s.Committed (q * pageSize) := by
  induction n generalizing p with
  | zero =>
    refine iff_of_true rfl ?_
    intro q hq
    omega
  | succ n ih =>
    have hlt : p < e := by omega
    rw [allCommitted, if_pos (page_lt.2 hlt), succ_page (by omega)]
    split_ifs with hbad
    · refine iff_of_false (by decide) ?_
      intro hall
      obtain ⟨h1, h2⟩ := hall p ⟨Nat.le_refl _, hlt⟩
      rcases hbad with hb | hb
      · rw [hb] at h1
        contradiction
      · exact h2 hb
    · rw [ih (by omega)]
      rw [not_or] at hbad
      constructor
      · intro hall q hq
        by_cases hqp : q = p
        · rw [hqp]
          exact ⟨by simpa using hbad.1, hbad.2⟩
        · exact hall q (by omega)
      · intro hall q hq
        exact hall q (by omega)

end Roswell.Ports.TitleVm
