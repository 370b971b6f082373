import Roswell.Ports.ContigTable

/-!
# The growing loop of a GPU instance claim

One iteration takes a page that is free, or clears one that has an owner by
moving it away.  Either way exactly one page leaves the free lists, so a loop
over `n` pages that are free or owned succeeds throughout when the generic
pages on the lists are at least `n`.
-/

namespace Roswell.Ports.Contig

open Verified.Word PageSupply

/-- A free generic page outside the window is a destination. -/
theorem takeAnyOutside_succeeds {s : Supply} (h : Inv s) {low high q : Nat}
    (hq : s.free q = true) (hfl : nxpGenericFloorPfn ≤ q)
    (hout : Supply.inWindow low high q = false) :
    (s.nxkPageSupplyTakeAnyOutside low high).2 ≠ 0 := by
  have hmem := h.mem_destinations.2 ⟨hq, h.hint_low q hq hfl, hout⟩
  rcases h.takeAnyOutside_spec low high with ⟨hempty, -⟩ | ⟨page, hpage, htake, -⟩
  · rw [hempty] at hmem
    exact absurd hmem (Finset.notMem_empty q)
  · rw [htake]
    exact h.free_pos (h.mem_destinations.1 hpage).1

/-- A page with an owner is relocated when a generic page is free. -/
theorem relocatePage_succeeds {s : Supply} (h : Inv s) {page : Nat} (h0 : page ≠ 0)
    (hle : page ≤ s.highestPfn) (hf : s.free page = false) (howner : s.links page ≠ 0)
    (havail : 0 < s.genericAvail) :
    ∃ t m, s.nxkPageSupplyTakeRunRelocate 1 page page 1 = (t, page, [m]) := by
  have hword := h.highest_lt
  have hreq : s.runRequest 1 page page 1 = some ⟨1, page, 1, page⟩ := by
    have hmask : alignDown (page - 1 + 1) 1 = page := by
      rw [show page - 1 + 1 = page by omega]
      exact Nat.and_two_pow_sub_one_of_lt_two_pow (n := 32) (by omega)
    unfold Supply.runRequest
    simp [h0, hmask, Nat.not_lt.2 hle]
  have hgeneric : wsub s.genericAvail 0 = s.genericAvail := by
    have := h.card_freePages_lt
    have := Inv.card_genericPages_le s
    rw [wsub_of_le (Nat.zero_le _), Nat.sub_zero]
    rw [h.generic]
    omega
  have hscan : s.relocScan ⟨1, page, 1, page⟩ (page + 1) page = some page := by
    rw [Supply.relocScan]
    simp only [Nat.lt_irrefl, if_false]
    simp only [Supply.relocCount, Nat.add_zero, hf, howner, if_true, Bool.false_eq_true,
      if_false, Nat.zero_add, hgeneric, ne_eq, not_false_eq_true]
    rw [if_neg (by omega)]
  obtain ⟨q, hq⟩ : ∃ q, q ∈ s.genericPages := by
    rw [← Finset.nonempty_def, ← Finset.card_pos, ← h.generic]
    exact havail
  obtain ⟨hqf, hqfl⟩ := h.mem_genericPages.1 hq
  have hout : Supply.inWindow page (page + 1 - 1) q = false := by
    have hne : q ≠ page := by
      rintro rfl
      rw [hqf] at hf
      contradiction
    rw [Supply.inWindow, decide_eq_false_iff_not]
    omega
  have hdest := takeAnyOutside_succeeds h hqf hqfl hout
  have hpages : ∃ t m, Supply.relocPages page 1 1 s = (t, true, [m]) := by
    rw [Supply.relocPages]
    simp only [Nat.zero_add, Nat.sub_self, Nat.add_zero, hf, Bool.false_eq_true, if_false]
    rw [if_neg hdest]
    exact ⟨_, _, rfl⟩
  obtain ⟨t, m, hpages⟩ := hpages
  refine ⟨t, m, ?_⟩
  unfold Supply.nxkPageSupplyTakeRunRelocate
  simp only [hreq, hscan, hpages, if_true]

/-- The effect of claiming one page. -/
structure Claimed (s t : Supply) (page : Nat) : Prop where
  run : PinnedRun s t page 1
  takeable : ∀ q, q ≠ page → s.Takeable q → t.Takeable q
  generic : s.genericAvail ≤ t.genericAvail + 1

/-- When one page left the free lists, so did at most one generic page. -/
theorem genericAvail_le {s t : Supply} (hs : Inv s) (ht : Inv t) (x : Nat)
    (hfree : ∀ q, s.free q = true → q ≠ x → t.free q = true) :
    s.genericAvail ≤ t.genericAvail + 1 := by
  have hsub : s.genericPages ⊆ insert x t.genericPages := by
    intro q hq
    obtain ⟨hqf, hqfl⟩ := hs.mem_genericPages.1 hq
    rw [Finset.mem_insert]
    by_cases hqx : q = x
    · exact .inl hqx
    · exact .inr (ht.mem_genericPages.2 ⟨hfree q hqf hqx, hqfl⟩)
  rw [hs.generic, ht.generic]
  exact (Finset.card_le_card hsub).trans (Finset.card_insert_le _ _)

theorem claimPage_spec {s : Supply} (h : Inv s) (page : Nat) (h0 : page ≠ 0)
    (hle : page ≤ s.highestPfn) (htake : s.Takeable page) (havail : 0 < s.genericAvail) :
    ∃ t, claimPage s page = (t, true) ∧ Claimed s t page := by
  have hself : ∀ q, inRun page 1 q = true → q = page := by
    intro q hq
    rw [inRun_iff] at hq
    omega
  unfold claimPage
  rcases h.takeSpecific_spec page with ⟨hf, hno⟩ | ⟨hyes, htook⟩
  · have howner : s.links page ≠ 0 := by
      refine htake.resolve_left ?_
      rw [hf]
      exact Bool.false_ne_true
    obtain ⟨t, m, hres⟩ := relocatePage_succeeds h h0 hle hf howner havail
    rcases h.takeRunRelocate_spec hres with ⟨-, hbad, -⟩ | hyes
    · exact absurd hbad h0
    obtain ⟨base, hi, -, -, -, -, hrun, hreloc, hdone⟩ := hyes
    obtain ⟨rfl, rfl⟩ := hdone h0
    have hkeep : ∀ q, s.Pinned q → t.Pinned q := by
      intro q hq
      exact hreloc.pinned (fun r h1 h2 => hrun r (inRun_iff.2 ⟨h1, h2⟩)) hq
    -- the destination is the one page that leaves the free lists
    have hfree : ∀ q, s.free q = true → q ≠ m.dest → t.free q = true := by
      intro q hq hqd
      refine (hreloc.free_iff q).2 ⟨hq, ?_, ?_⟩
      · intro hin
        rw [show q = page by omega, hf] at hq
        contradiction
      · simpa using hqd
    refine ⟨t, ?_, ⟨⟨hreloc.inv, hreloc.highest, hkeep, ?_, ?_⟩, ?_, ?_⟩⟩
    · rw [hno]
      simp only [hres]
      rw [bne_iff_ne.2 h0]
    · intro q hq hp
      rw [hself q hq] at hp
      exact howner hp.2.2
    · intro q hq
      rw [hself q hq]
      refine ⟨h0, ?_, hreloc.run_links page (Nat.le_refl _) (Nat.lt_succ_self _)⟩
      rw [hreloc.highest]
      exact hle
    · intro q hq hqt
      cases hqf : s.free q with
      | true =>
        by_cases hqd : q = m.dest
        · obtain ⟨-, -, hlinks⟩ := hreloc.dest m List.mem_cons_self
          obtain ⟨hlo, hhi, -, hsrc⟩ := hreloc.source m List.mem_cons_self
          right
          rw [hqd, hlinks, hsrc, show m.page = page by omega]
          exact howner
        · exact .inl (hfree q hqf hqd)
      | false =>
        right
        rw [hreloc.frame q hqf (by omega)]
        exact hqt.resolve_left (by rw [hqf]; exact Bool.false_ne_true)
    · exact genericAvail_le h hreloc.inv m.dest hfree
  · rw [hyes]
    refine ⟨_, rfl, ⟨⟨htook.inv, htook.highest, fun q hq => htook.run.pinned hq, ?_, ?_⟩, ?_, ?_⟩⟩
    · intro q hq hp
      have hfp := htook.was_free
      rw [hself q hq] at hp
      rw [hp.not_free] at hfp
      contradiction
    · intro q hq
      rw [hself q hq]
      refine ⟨h0, ?_, htook.links_self⟩
      rw [htook.highest]
      exact hle
    · intro q hq hqt
      cases hqf : s.free q with
      | true =>
        left
        rw [htook.free, hqf, decide_eq_true hq]
        rfl
      | false =>
        right
        rw [htook.links q hqf]
        exact hqt.resolve_left (by rw [hqf]; exact Bool.false_ne_true)
    · refine genericAvail_le h htook.inv page ?_
      intro q hq hqp
      rw [htook.free, hq, decide_eq_true hqp]
      rfl

/-- The growing loop over pages that are free or owned, with enough generic
pages free: every page is taken. -/
theorem claimGrow_spec {s : Supply} (h : Inv s) (oldLow n : Nat) (hn : n < oldLow)
    (hle : oldLow ≤ s.highestPfn + 1)
    (htake : ∀ q, inRun (oldLow - n) n q = true → s.Takeable q)
    (havail : n ≤ s.genericAvail) :
    ∃ t pages, claimGrow oldLow n s = (t, pages) ∧ PinnedRun s t (oldLow - n) n ∧
      ∀ q, q ∈ pages ↔ inRun (oldLow - n) n q = true := by
  induction n generalizing s oldLow with
  | zero =>
    have hno : ∀ q, inRun (oldLow - 0) 0 q = false := by
      intro q
      simp [inRun]
    refine ⟨s, [], rfl, ⟨h, rfl, fun _ hp => hp, ?_, ?_⟩, ?_⟩
    · intro q hq
      rw [hno q] at hq
      contradiction
    · intro q hq
      rw [hno q] at hq
      contradiction
    · intro q
      rw [hno q]
      simp
  | succ n ih =>
    obtain ⟨t₁, hpage, hcl⟩ := claimPage_spec h (oldLow - 1) (by omega) (by omega)
      (htake _ (inRun_iff.2 (by omega))) (by omega)
    have hbase : oldLow - 1 - n = oldLow - (n + 1) := by omega
    have hsplit : ∀ q, inRun (oldLow - (n + 1)) (n + 1) q = true ↔
        inRun (oldLow - (n + 1)) n q = true ∨ q = oldLow - 1 := by
      intro q
      rw [inRun_iff, inRun_iff]
      omega
    have hrest : ∀ q, inRun (oldLow - 1 - n) n q = true → t₁.Takeable q := by
      intro q hq
      rw [hbase, inRun_iff] at hq
      exact hcl.takeable q (by omega) (htake q (inRun_iff.2 (by omega)))
    obtain ⟨t, pages, hgrow, hrun, hpages⟩ := ih hcl.run.inv (oldLow - 1) (by omega)
      (by rw [hcl.run.highest]; omega) hrest (by have := hcl.generic; omega)
    rw [hbase] at hrun hpages
    have hlast : inRun (oldLow - 1) 1 (oldLow - 1) = true := inRun_iff.2 (by omega)
    refine ⟨t, (oldLow - 1) :: pages, ?_, ⟨hrun.inv, ?_, ?_, ?_, ?_⟩, ?_⟩
    · rw [claimGrow, hpage]
      simp only [hgrow, if_true]
    · exact hrun.highest.trans hcl.run.highest
    · exact fun q hq => hrun.keep q (hcl.run.keep q hq)
    · intro q hq hp
      rcases (hsplit q).1 hq with hq | rfl
      · exact hrun.fresh q hq (hcl.run.keep q hp)
      · exact hcl.run.fresh _ hlast hp
    · intro q hq
      rcases (hsplit q).1 hq with hq | rfl
      · exact hrun.run q hq
      · exact hrun.keep _ (hcl.run.run _ hlast)
    · intro q
      rw [List.mem_cons, hpages, hsplit, or_comm]

end Roswell.Ports.Contig
