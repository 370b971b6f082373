import Roswell.Ports.PageSupplyOps

/-!
# The relocating run allocator

`NxkPageSupplyTakeRunRelocate` takes every page of a candidate run: free pages
are unlinked, owned pages hand their owner entry to a page outside the run.
`Relocated` is the whole effect on the table of processing the pages from `lo`
to `hi`, together with the list of moves in the order they happen.  It is
built back to front, one lemma for each branch of the loop.
-/

namespace Roswell.Ports.PageSupply

open Verified.Word Verified.ScanDown Function Supply

/-- The page can be taken by the relocating allocator: it is free, or some
page-table entry owns it. -/
def Supply.Takeable (s : Supply) (page : Nat) : Prop :=
  s.free page = true ∨ s.links page ≠ 0

/-! ## Handing an owner entry over -/

/-- `page` hands its owner entry to the free page `dest` and becomes ownerless. -/
def Supply.handOver (s : Supply) (dest page : Nat) : Supply :=
  ((s.nxpUnlink dest).setEntry dest (s.links page)).setEntry page 0

theorem Supply.handOver_links (s : Supply) (dest page : Nat) :
    (s.handOver dest page).links =
      update (update (s.nxpUnlink dest).links dest (s.links page)) page 0 := rfl

/-- Handing an owner entry over keeps the invariant. -/
theorem Inv.handOver {s : Supply} (h : Inv s) {dest page : Nat} (hdest : s.free dest = true)
    (hf : s.free page = false) : Inv (s.handOver dest page) := by
  have hpd : page ≠ dest := fun e => by
    rw [e, hdest] at hf
    contradiction
  have htook := h.took hdest
  refine (htook.inv.setEntry htook.not_free (h.owner_lt page hf)).setEntry ?_ (by decide)
  rw [free, setEntry_links, update_of_ne hpd, ← free]
  exact htook.inUse hf

/-- Only `dest` is no longer free. -/
theorem Inv.handOver_free {s : Supply} (h : Inv s) {dest page : Nat} (hdest : s.free dest = true)
    (hf : s.free page = false) (q : Nat) :
    (s.handOver dest page).free q = (decide (q ≠ dest) && s.free q) := by
  rw [free, handOver_links]
  by_cases hq : q = page
  · rw [hq, hf, Bool.and_false, update_self]
    rfl
  · rw [update_of_ne hq]
    by_cases hqd : q = dest
    · rw [hqd, update_self, ← free, hf]
      simp
    · rw [update_of_ne hqd, ← free, (h.took hdest).free]

/-! ## The effect of the loop -/

/-- The effect of processing the pages `lo ≤ q < hi` of a run that fills the
window `[low, high]`. -/
structure Relocated (s t : Supply) (low high lo hi : Nat) (moves : List Supply.Move) :
    Prop where
  le : lo ≤ hi
  inv : Inv t
  highest : t.highestPfn = s.highestPfn
  free_iff : ∀ q, t.free q = true ↔
    s.free q = true ∧ ¬(lo ≤ q ∧ q < hi) ∧ q ∉ moves.map Supply.Move.dest
  run_links : ∀ q, lo ≤ q → q < hi → t.links q = 0
  frame : ∀ q, s.free q = false → ¬(lo ≤ q ∧ q < hi) → t.links q = s.links q
  dest : ∀ m ∈ moves, s.free m.dest = true ∧
    inWindow low high m.dest = false ∧ t.links m.dest = m.owner
  source : ∀ m ∈ moves, lo ≤ m.page ∧ m.page < hi ∧ s.free m.page = false ∧
    m.owner = s.links m.page
  moved : ∀ q, lo ≤ q → q < hi → s.free q = false → ∃ m ∈ moves, m.page = q
  dest_nodup : (moves.map Supply.Move.dest).Nodup
  page_nodup : (moves.map Supply.Move.page).Nodup

namespace Relocated

variable {s s₁ t : Supply} {low high lo hi dest : Nat} {moves : List Supply.Move}

theorem nil (h : Inv s) (low high lo : Nat) : Relocated s s low high lo lo [] where
  le := Nat.le_refl _
  inv := h
  highest := rfl
  free_iff := fun q => by
    have : ¬(lo ≤ q ∧ q < lo) := by omega
    simp [this]
  run_links := fun q h1 h2 => by omega
  frame := fun _ _ _ => rfl
  dest := by simp
  source := by simp
  moved := fun q h1 h2 => by omega
  dest_nodup := by simp
  page_nodup := by simp

/-- A page of the run is in use afterwards. -/
theorem run_inUse (h : Relocated s t low high lo hi moves) {q : Nat} (h1 : lo ≤ q)
    (h2 : q < hi) : t.free q = false := by
  rw [Bool.eq_false_iff]
  intro hf
  exact ((h.free_iff q).1 hf).2.1 ⟨h1, h2⟩

/-- A page in use stays in use. -/
theorem inUse (h : Relocated s t low high lo hi moves) {q : Nat} (hq : s.free q = false) :
    t.free q = false := by
  rw [Bool.eq_false_iff]
  intro hf
  rw [((h.free_iff q).1 hf).1] at hq
  contradiction

/-- The branch for a free page: it is unlinked, and the rest of the run is
processed from the resulting state. -/
theorem cons_free (htook : Took s s₁ lo) (h : Relocated s₁ t low high (lo + 1) hi moves) :
    Relocated s t low high lo hi moves := by
  have hle := h.le
  have hfree : ∀ q, q ≠ lo → s₁.free q = s.free q := by
    intro q hq
    simp [htook.free, hq]
  have hne : ∀ q, s.free q = false → q ≠ lo := by
    intro q hq e
    rw [e, htook.was_free] at hq
    contradiction
  refine
    { le := by omega
      inv := h.inv
      highest := h.highest.trans htook.highest
      free_iff := ?_
      run_links := ?_
      frame := ?_
      dest := ?_
      source := ?_
      moved := ?_
      dest_nodup := h.dest_nodup
      page_nodup := h.page_nodup }
  · intro q
    rw [h.free_iff q]
    by_cases hq : q = lo
    · simp [hq, htook.not_free]
      intro _ hlt
      omega
    · have hin : (lo + 1 ≤ q ∧ q < hi) ↔ (lo ≤ q ∧ q < hi) := by omega
      rw [hfree q hq, hin]
  · intro q h1 h2
    by_cases hq : q = lo
    · rw [hq, h.frame lo htook.not_free (by omega), htook.links_self]
    · exact h.run_links q (by omega) h2
  · intro q hq hout
    have hql := hne q hq
    rw [h.frame q (by rwa [hfree q hql]) (by omega), htook.links q hq]
  · intro m hm
    obtain ⟨h1, h2, h3⟩ := h.dest m hm
    rw [htook.free, Bool.and_eq_true] at h1
    exact ⟨h1.2, h2, h3⟩
  · intro m hm
    obtain ⟨h1, h2, h3, h4⟩ := h.source m hm
    rw [hfree m.page (by omega)] at h3
    exact ⟨by omega, h2, h3, by rw [h4, htook.links m.page h3]⟩
  · intro q h1 h2 hq
    have hql := hne q hq
    exact h.moved q (by omega) h2 (by rwa [hfree q hql])

/-- The branch for an owned page: a page outside the window is taken and
receives the owner entry, and the page becomes ownerless. -/
theorem cons_owned (hs : Inv s) (hown : s.free lo = false) (hlow : low ≤ lo)
    (hrun : hi ≤ high + 1) (hdest : dest ∈ s.destinations low high)
    (h : Relocated (s.handOver dest lo) t low high (lo + 1) hi moves) :
    Relocated s t low high lo hi (⟨lo, dest, s.links lo⟩ :: moves) := by
  have hle := h.le
  obtain ⟨hwas, -, hout⟩ := hs.mem_destinations.1 hdest
  have hdout : ¬(low ≤ dest ∧ dest ≤ high) := by simpa [inWindow] using hout
  have hfree := hs.handOver_free hwas hown
  have hfreeDest : (s.handOver dest lo).free dest = false := by simp [hfree]
  have hkept : ∀ q, s.free q = false → (s.handOver dest lo).free q = false := by
    intro q hq
    simp [hfree, hq]
  have hne : ∀ q, s.free q = false → q ≠ dest := by
    rintro q hq rfl
    rw [hwas] at hq
    contradiction
  have hlinks : ∀ q, s.free q = false → q ≠ lo →
      (s.handOver dest lo).links q = s.links q := by
    intro q hq hql
    rw [handOver_links, update_of_ne hql, update_of_ne (hne q hq), (hs.took hwas).links q hq]
  refine
    { le := by omega
      inv := h.inv
      highest := h.highest.trans (hs.took hwas).highest
      free_iff := ?_
      run_links := ?_
      frame := ?_
      dest := ?_
      source := ?_
      moved := ?_
      dest_nodup := ?_
      page_nodup := ?_ }
  · intro q
    rw [h.free_iff q, hfree]
    by_cases hqd : q = dest
    · simp [hqd]
    · by_cases hql : q = lo
      · simp [hql, hown]
      · have hin : (lo + 1 ≤ q ∧ q < hi) ↔ (lo ≤ q ∧ q < hi) := by omega
        rw [hin]
        simp [hqd]
  · intro q h1 h2
    by_cases hq : q = lo
    · rw [hq, h.frame lo (hkept lo hown) (by omega), handOver_links, update_self]
    · exact h.run_links q (by omega) h2
  · intro q hq hout
    rw [h.frame q (hkept q hq) (by omega), hlinks q hq (by omega)]
  · intro m hm
    rcases List.mem_cons.1 hm with rfl | hm
    · refine ⟨hwas, hout, ?_⟩
      rw [h.frame dest hfreeDest (by omega), handOver_links, update_of_ne (hne lo hown).symm,
        update_self]
    · obtain ⟨h1, h2, h3⟩ := h.dest m hm
      rw [hfree, Bool.and_eq_true] at h1
      exact ⟨h1.2, h2, h3⟩
  · intro m hm
    rcases List.mem_cons.1 hm with rfl | hm
    · exact ⟨Nat.le_refl _, by simp only; omega, hown, rfl⟩
    · obtain ⟨h1, h2, h3, h4⟩ := h.source m hm
      have hmd : m.page ≠ dest := by omega
      have hwas : s.free m.page = false := by simpa [hfree, hmd] using h3
      exact ⟨by omega, h2, hwas, by rw [h4, hlinks _ hwas (by omega)]⟩
  · intro q h1 h2 hq
    by_cases hql : q = lo
    · exact ⟨_, List.mem_cons_self, hql.symm⟩
    · obtain ⟨m, hm, hmq⟩ := h.moved q (by omega) h2 (hkept q hq)
      exact ⟨m, List.mem_cons_of_mem _ hm, hmq⟩
  · rw [List.map_cons, List.nodup_cons]
    refine ⟨?_, h.dest_nodup⟩
    intro hm
    obtain ⟨m, hm, hmd⟩ := List.mem_map.1 hm
    have h1 := (h.dest m hm).1
    rw [hmd, hfreeDest] at h1
    contradiction
  · rw [List.map_cons, List.nodup_cons]
    refine ⟨?_, h.page_nodup⟩
    intro hm
    obtain ⟨m, hm, hmp⟩ := List.mem_map.1 hm
    have h1 := (h.source m hm).1
    simp only at hmp
    omega

end Relocated

/-! ## The take loop -/

namespace Inv

variable {s s₁ : Supply} {n dest : Nat}

/-- One round of the take loop: the page is free and comes off its list, or no
destination is left, or it hands its owner entry to a destination. -/
theorem relocPages_succ (h : Inv s) {base run page : Nat}
    (hpage : base + (run - (n + 1)) = page) :
    s.free page = true ∧
        relocPages base run (n + 1) s = relocPages base run n (s.nxpUnlink page) ∨
      s.free page = false ∧
        (s.destinations base (base + run - 1) = ∅ ∧
            s.nxkPageSupplyTakeAnyOutside base (base + run - 1) = (s, 0) ∧
            relocPages base run (n + 1) s = (s, false, []) ∨
          ∃ dest ∈ s.destinations base (base + run - 1),
            s.nxkPageSupplyTakeAnyOutside base (base + run - 1) = (s.nxpUnlink dest, dest) ∧
            relocPages base run (n + 1) s =
              ((relocPages base run n (s.handOver dest page)).1,
                (relocPages base run n (s.handOver dest page)).2.1,
                ⟨page, dest, s.links page⟩ ::
                  (relocPages base run n (s.handOver dest page)).2.2)) := by
  rw [relocPages]
  simp only [hpage]
  by_cases hf : s.free page = true
  · rw [if_pos hf]
    exact .inl ⟨hf, rfl⟩
  rw [if_neg hf]
  rw [Bool.not_eq_true] at hf
  rw [ownerIndex_ownerPteVa (h.owner_lt page hf)]
  refine .inr ⟨hf, ?_⟩
  rcases h.takeAnyOutside_spec base (base + run - 1) with
    ⟨hempty, hnone⟩ | ⟨dest, hdest, htake, -⟩
  · rw [hnone]
    exact .inl ⟨hempty, rfl, rfl⟩
  · have hfree := (h.mem_destinations.1 hdest).1
    refine .inr ⟨dest, hdest, htake, ?_⟩
    rw [htake, if_neg (h.free_pos hfree)]
    rfl

/-- The take loop over the last `n` pages of a run.  It stops early only when
no destination is left. -/
theorem relocPages_spec (h : Inv s) (base : Nat) {run : Nat} (hn : n ≤ run) :
    ∃ hi, base + (run - n) ≤ hi ∧ hi ≤ base + run ∧
      Relocated s (relocPages base run n s).1 base (base + run - 1)
        (base + (run - n)) hi (relocPages base run n s).2.2 ∧
      ((relocPages base run n s).2.1 = true → hi = base + run) := by
  induction n generalizing s with
  | zero =>
    exact ⟨base + run, by omega, by omega, Relocated.nil h _ _ _, fun _ => rfl⟩
  | succ n ih =>
    have hnext : base + (run - n) = base + (run - (n + 1)) + 1 := by omega
    obtain ⟨page, hpage⟩ : ∃ page, base + (run - (n + 1)) = page := ⟨_, rfl⟩
    rw [hpage] at hnext ⊢
    rcases h.relocPages_succ hpage with ⟨hf, hstep⟩ | ⟨hf, ⟨-, -, hstep⟩ |
      ⟨dest, hdest, -, hstep⟩⟩
    · obtain ⟨hi, h1, h2, hr, hd⟩ := ih (h.took hf).inv (by omega)
      rw [hnext] at hr
      rw [hstep]
      exact ⟨hi, by omega, h2, hr.cons_free (h.took hf), hd⟩
    · rw [hstep]
      exact ⟨page, by omega, by omega, Relocated.nil h _ _ _, fun e => by contradiction⟩
    · obtain ⟨hi, h1, h2, hr, hd⟩ :=
        ih (h.handOver (h.mem_destinations.1 hdest).1 hf) (by omega)
      rw [hnext] at hr
      rw [hstep]
      exact ⟨hi, by omega, h2, hr.cons_owned h hf (by omega) (by omega) hdest, hd⟩

end Inv

/-! ## The candidate scan -/

namespace Supply

variable {s : Supply}

/-- A candidate passes the count only if each of its pages can be taken. -/
theorem relocCount_takeable {base n f m : Nat} {c : Nat × Nat}
    (h : s.relocCount base n f m = .ok c) :
    ∀ q, inRun base n q = true → s.Takeable q := by
  induction n generalizing f m with
  | zero =>
    intro q hq
    rw [inRun_iff] at hq
    omega
  | succ n ih =>
    intro q hq
    rw [inRun_iff] at hq
    have hlast : s.Takeable (base + n) ∧ ∃ f' m', s.relocCount base n f' m' = .ok c := by
      rw [relocCount] at h
      by_cases hf : s.free (base + n) = true
      · rw [if_pos hf] at h
        exact ⟨.inl hf, _, _, h⟩
      · rw [if_neg hf] at h
        by_cases h0 : s.links (base + n) ≠ 0
        · rw [if_pos h0] at h
          exact ⟨.inr h0, _, _, h⟩
        · rw [if_neg h0] at h
          contradiction
    obtain ⟨htake, f', m', hrest⟩ := hlast
    by_cases hqn : q = base + n
    · rw [hqn]
      exact htake
    · exact ih hrest q (inRun_iff.2 (by omega))

/-- The page that stops a candidate lies in it and can not be taken. -/
theorem relocCount_error {base n f m failed : Nat}
    (h : s.relocCount base n f m = .error failed) :
    inRun base n failed = true ∧ ¬s.Takeable failed := by
  induction n generalizing f m with
  | zero => simp [relocCount] at h
  | succ n ih =>
    have hweak : inRun base n failed = true → inRun base (n + 1) failed = true := by
      rw [inRun_iff, inRun_iff]
      omega
    rw [relocCount] at h
    by_cases hf : s.free (base + n) = true
    · rw [if_pos hf] at h
      exact ⟨hweak (ih h).1, (ih h).2⟩
    · split_ifs at h with h0
      · exact ⟨hweak (ih h).1, (ih h).2⟩
      · cases h
        exact ⟨inRun_iff.2 (by omega), fun ht => ht.elim hf h0⟩

/-- The test `NxkPageSupplyTakeRunRelocate` makes of one base.  A candidate with
too few destinations elsewhere is stepped over by one alignment unit. -/
def relocTest (s : Supply) (runPages alignPages base : Nat) : Verdict :=
  match s.relocCount base runPages 0 0 with
  | .error failed => .rejected failed
  | .ok (freeInWindow, movable) =>
    if wsub s.genericAvail freeInWindow < movable then
      if base < alignPages then .stop else .rejected (base - alignPages + runPages)
    else .fits

/-- The scan of `NxkPageSupplyTakeRunRelocate` is a top-down search. -/
theorem relocScan_eq (s : Supply) (r : RunRequest) (fuel base : Nat) :
    s.relocScan r fuel base =
      scanDown (s.relocTest r.runPages r.alignPages) r.lowPfn r.runPages r.alignPages
        fuel base := by
  induction fuel generalizing base with
  | zero => rfl
  | succ fuel ih =>
    rw [relocScan, scanDown, relocTest]
    cases hc : s.relocCount base r.runPages 0 0 with
    | error failed => simp only [ih]
    | ok c =>
      by_cases hfew : wsub s.genericAvail c.1 < c.2 <;> by_cases hend : base < r.alignPages <;>
        simp only [hfew, hend, if_true, if_false, ih]

theorem relocTest_takeable {runPages alignPages base : Nat}
    (h : s.relocTest runPages alignPages base = .fits) :
    ∀ q, inRun base runPages q = true → s.Takeable q := by
  unfold relocTest at h
  cases hc : s.relocCount base runPages 0 0 with
  | error failed => simp [hc] at h
  | ok c => exact relocCount_takeable hc

/-- A rejection names a page of the candidate that can not be taken, or steps
down by one alignment unit. -/
theorem relocTest_rejected {runPages alignPages base failed : Nat}
    (h : s.relocTest runPages alignPages base = .rejected failed) :
    (base ≤ failed ∧ failed < base + runPages ∧ ¬s.Takeable failed) ∨
      (alignPages ≤ base ∧ failed = base - alignPages + runPages) := by
  unfold relocTest at h
  cases hc : s.relocCount base runPages 0 0 with
  | error page =>
    simp only [hc, Verdict.rejected.injEq] at h
    subst h
    have hin := inRun_iff.1 (relocCount_error hc).1
    exact .inl ⟨hin.1, hin.2, (relocCount_error hc).2⟩
  | ok c =>
    simp only [hc] at h
    split at h
    · split at h
      · contradiction
      · rename_i hend
        simp only [Verdict.rejected.injEq] at h
        exact .inr ⟨by omega, h.symm⟩
    · contradiction

theorem relocTest_stop {runPages alignPages base : Nat}
    (h : s.relocTest runPages alignPages base = .stop) : base < alignPages := by
  unfold relocTest at h
  cases hc : s.relocCount base runPages 0 0 with
  | error page => simp [hc] at h
  | ok c =>
    simp only [hc] at h
    split at h
    · split at h
      · assumption
      · contradiction
    · contradiction

variable {s : Supply} {runPages lowPfn highPfn alignPages : Nat}

/-- A candidate base of `NxkPageSupplyTakeRunRelocate`. -/
def RelocFits (s : Supply) (runPages lowPfn highPfn alignPages : Nat) : Nat → Prop :=
  s.Candidate (s.relocTest runPages (effectiveAlign alignPages)) runPages lowPfn highPfn
    alignPages

/-- The scan of `NxkPageSupplyTakeRunRelocate` finds the highest run that can be
taken. -/
theorem relocScan_search (h : Inv s) {r : RunRequest}
    (hr : s.runRequest runPages lowPfn highPfn alignPages = some r) :
    (s.relocScan r (r.firstBase + 1) r.firstBase = none ∧
        (PowTwo alignPages → ∀ b, ¬s.RelocFits runPages lowPfn highPfn alignPages b)) ∨
      ∃ base, s.relocScan r (r.firstBase + 1) r.firstBase = some base ∧
        Highest (s.RelocFits runPages lowPfn highPfn alignPages) alignPages base := by
  have hnorm := runRequest_spec hr
  have hsearch := hnorm.search h (s.relocTest r.runPages r.alignPages)
    (fun b failed hb => by
      rcases relocTest_rejected hb with hpage | hstep <;> omega)
    (fun k base failed hk hb hdvd => by
      have hpos : 0 < r.alignPages := by
        rw [hk]
        exact Nat.two_pow_pos k
      rcases relocTest_rejected hb with ⟨h1, h2, h3⟩ | ⟨h1, h2⟩
      · refine ⟨h2, ?_⟩
        intro b hle _ hlt hfit
        exact h3 (relocTest_takeable hfit failed (inRun_iff.2 (by omega)))
      · refine ⟨by omega, ?_⟩
        intro b hle hbd hlt hfit
        -- The only multiple between the two bases is the rejected one.
        have heq : b = base := eq_of_dvd_of_lt_add hbd hdvd hle (by omega)
        rw [heq, hb] at hfit
        contradiction)
    (fun k base _ hb hdvd _ b _ hle hbd hfit => by
      have hlt := relocTest_stop hb
      rw [eq_of_dvd_of_lt_add hbd hdvd hle (by omega), hb] at hfit
      contradiction)
  rw [RunRequest.search, ← relocScan_eq, hnorm.run, hnorm.align] at hsearch
  exact hsearch

/-- `NxkPageSupplyTakeRunRelocate` works on the highest run it can take. -/
theorem takeRunRelocate_search (h : Inv s) (runPages lowPfn highPfn alignPages : Nat) :
    (s.nxkPageSupplyTakeRunRelocate runPages lowPfn highPfn alignPages = (s, 0, []) ∧
        (PowTwo alignPages → ∀ b, ¬s.RelocFits runPages lowPfn highPfn alignPages b)) ∨
      ∃ base, Highest (s.RelocFits runPages lowPfn highPfn alignPages) alignPages base ∧
        s.nxkPageSupplyTakeRunRelocate runPages lowPfn highPfn alignPages =
          ((relocPages base runPages runPages s).1,
            if (relocPages base runPages runPages s).2.1 then base else 0,
            (relocPages base runPages runPages s).2.2) := by
  unfold nxkPageSupplyTakeRunRelocate
  cases hr : s.runRequest runPages lowPfn highPfn alignPages with
  | none =>
    refine .inl ⟨rfl, ?_⟩
    rintro - b ⟨hpos, hwin, -, -⟩
    exact runRequest_none hpos hr b hwin
  | some r =>
    simp only
    rcases relocScan_search h hr with ⟨hnone, hno⟩ | ⟨base, hbase, hhigh⟩
    · rw [hnone]
      exact .inl ⟨rfl, hno⟩
    · rw [hbase, (runRequest_spec hr).run]
      exact .inr ⟨base, hhigh, rfl⟩

end Supply

namespace Inv

variable {s : Supply}

/-- `NxkPageSupplyTakeRunRelocate` does nothing, or it processes a run inside
the window; on success it has processed all of it. -/
theorem takeRunRelocate_spec (h : Inv s) {runPages lowPfn highPfn alignPages : Nat}
    {t : Supply} {result : Nat} {moves : List Supply.Move}
    (hres : s.nxkPageSupplyTakeRunRelocate runPages lowPfn highPfn alignPages =
      (t, result, moves)) :
    (t = s ∧ result = 0 ∧ moves = []) ∨
      ∃ base hi, 0 < runPages ∧ s.InRunWindow runPages lowPfn highPfn base ∧
        alignDown base (effectiveAlign alignPages) = base ∧ hi ≤ base + runPages ∧
        (∀ q, inRun base runPages q = true → s.Takeable q) ∧
        Relocated s t base (base + runPages - 1) base hi moves ∧
        (result ≠ 0 → result = base ∧ hi = base + runPages) := by
  rcases takeRunRelocate_search h runPages lowPfn highPfn alignPages with
    ⟨hnone, -⟩ | ⟨base, ⟨⟨hpos, hwin, halign, hfits⟩, -⟩, htake⟩
  · rw [hnone] at hres
    cases hres
    exact .inl ⟨rfl, rfl, rfl⟩
  · obtain ⟨hi, -, hle, hreloc, hdone⟩ := h.relocPages_spec base (Nat.le_refl runPages)
    rw [htake] at hres
    cases hres
    rw [Nat.sub_self, Nat.add_zero] at hreloc
    refine .inr ⟨base, hi, hpos, hwin, halign, hle, relocTest_takeable hfits, hreloc, ?_⟩
    intro h0
    by_cases hd : (relocPages base runPages runPages s).2.1 = true
    · rw [if_pos hd]
      exact ⟨rfl, hdone hd⟩
    · rw [if_neg hd] at h0
      exact absurd rfl h0

end Inv

end Roswell.Ports.PageSupply
