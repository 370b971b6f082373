import Roswell.Ports.Contig

/-!
# The tracking table

What the pieces of `contig.c` do to the table and to the supply.  `TableOk`
relates the table to the list of live allocations: every slot is blank or
describes a live allocation, and no two slots describe the same one.  It says
nothing about an allocation whose entry is lost; `Recorded` does, and is kept
only as long as nobody records into a slot that is taken.
-/

namespace Roswell.Ports.Contig

open Verified.Word PageSupply Function
open PageTables (pageSize)

/-! ## Entries -/

theorem Allocation.kseg0Alias_ne_zero (a : Allocation) : a.kseg0Alias ≠ 0 := by
  have h : nxkKseg0Base ≠ 0 := by decide
  unfold Allocation.kseg0Alias
  omega

theorem Allocation.base_eq {a b : Allocation} (h : a.kseg0Alias = b.kseg0Alias) :
    a.base = b.base := by
  unfold Allocation.kseg0Alias at h
  have hpos : 0 < pageSize := by decide
  exact Nat.eq_of_mul_eq_mul_right hpos (by omega)

/-- A window that a request passed the size check with. -/
def Window.Ok (w : Window) : Prop := 0 < w.runPages ∧ w.allocBytes = w.runPages * pageSize

theorem Request.window_ok {r : Request} {w : Window} (h : r.window = some w) : w.Ok := by
  unfold Request.window at h
  generalize hb : alignDown (wadd r.numberOfBytes (pageSize - 1)) pageSize = bytes at h
  by_cases h0 : bytes = 0
  · rw [if_pos h0] at h
    contradiction
  rw [if_neg h0, Option.some.injEq] at h
  have hdvd : pageSize ∣ bytes := by
    rw [← hb, show pageSize = 2 ^ 12 by rfl, alignDown_two_pow (wadd_lt _ _) (by decide)]
    exact roundDown_dvd _ _
  have hshift : bytes >>> pageShift = bytes / pageSize := Nat.shiftRight_eq_div_pow bytes 12
  rw [← h]
  refine ⟨?_, ?_⟩
  · rw [hshift]
    exact Nat.div_pos (Nat.le_of_dvd (Nat.pos_of_ne_zero h0) hdvd) (by decide)
  · rw [hshift, Nat.div_mul_cancel hdvd]

/-- The recorded entry describes the allocation that is returned. -/
theorem recordRun_eq {c : Tracking} {w : Window} {slot base : Nat} (hw : w.Ok)
    (hle : base + w.runPages ≤ 2 ^ 15) :
    recordRun c w slot base =
      { c with
        table := update c.table slot
          (Allocation.entry ⟨base, w.runPages, w.numberOfBytes⟩) } := by
  have hbytes : base * pageSize + w.runPages * pageSize ≤ 2 ^ 27 := by
    rw [show pageSize = 4096 from rfl]
    omega
  have hpa : base <<< pageShift = base * pageSize := Nat.shiftLeft_eq base 12
  have hend : wadd (base * pageSize) w.allocBytes = (base + w.runPages) * pageSize := by
    rw [hw.2, wadd_of_lt (by omega), Nat.add_mul]
  have halias : nxkKseg0Base ||| base * pageSize = nxkKseg0Base + base * pageSize := by
    exact two_pow_or_eq (k := 31) (by omega)
  unfold recordRun Tracking.nxpRecordHeapContigLocked
  simp only
  rw [hpa, hend, halias]
  rfl

/-! ## Slots -/

namespace Tracking

variable {c : Tracking}

/-- A found slot is free. -/
theorem freeSlotScan_some {n slot i : Nat} (hslot : slot < c.slots)
    (h : c.freeSlotScan n slot = some i) : i < c.slots ∧ (c.table i).kseg0Alias = 0 := by
  induction n generalizing slot with
  | zero => contradiction
  | succ n ih =>
    rw [freeSlotScan] at h
    by_cases hfree : (c.table slot).kseg0Alias = 0
    · rw [if_pos hfree, Option.some.injEq] at h
      rw [← h]
      exact ⟨hslot, hfree⟩
    · rw [if_neg hfree] at h
      refine ih ?_ h
      split <;> omega

/-- A scan that fails saw its slots taken, wrapping around at the end. -/
theorem freeSlotScan_none {n slot : Nat} (hslot : slot < c.slots)
    (h : c.freeSlotScan n slot = none) :
    ∀ k, k < n → (c.table ((slot + k) % c.slots)).kseg0Alias ≠ 0 := by
  induction n generalizing slot with
  | zero =>
    intro k hk
    omega
  | succ n ih =>
    rw [freeSlotScan] at h
    by_cases hfree : (c.table slot).kseg0Alias = 0
    · rw [if_pos hfree] at h
      contradiction
    rw [if_neg hfree] at h
    intro k hk
    cases k with
    | zero =>
      rw [Nat.add_zero, Nat.mod_eq_of_lt hslot]
      exact hfree
    | succ k =>
      have hnext : (slot + (k + 1)) % c.slots =
          ((if slot + 1 = c.slots then 0 else slot + 1) + k) % c.slots := by
        split
        · rename_i hend
          rw [show slot + (k + 1) = c.slots + k by omega, Nat.add_mod_left, Nat.zero_add]
        · congr 1
          omega
      rw [hnext]
      exact ih (by split <;> omega) h k (by omega)

/-- The two outcomes of the search for a slot. -/
theorem findFreeSlot_spec (hhint : c.hint < c.slots) :
    (∃ slot hint, c.nxpContigFindFreeSlotLocked = ({ c with hint := hint }, slot) ∧
        slot < c.slots ∧ hint < c.slots ∧ (c.table slot).kseg0Alias = 0) ∨
      (c.nxpContigFindFreeSlotLocked = (c, c.slots) ∧
        ∀ i, i < c.slots → (c.table i).kseg0Alias ≠ 0) := by
  unfold nxpContigFindFreeSlotLocked
  cases hs : c.freeSlotScan c.slots c.hint with
  | some slot =>
    obtain ⟨hlt, hfree⟩ := freeSlotScan_some hhint hs
    refine .inl ⟨slot, _, rfl, hlt, ?_, hfree⟩
    split <;> omega
  | none =>
    refine .inr ⟨rfl, ?_⟩
    intro i hi
    -- the scan reaches slot `i` after `i - hint` steps, wrapping if needed
    have hmod : (c.hint + (i + c.slots - c.hint) % c.slots) % c.slots = i := by
      rw [Nat.add_mod_mod, show c.hint + (i + c.slots - c.hint) = i + c.slots by omega,
        Nat.add_mod_right, Nat.mod_eq_of_lt hi]
    rw [← hmod]
    exact freeSlotScan_none hhint hs _ (Nat.mod_lt _ (by omega))

/-- The entry an address is found at, when one slot has it. -/
theorem findAlias_eq {va i : Nat} (hi : i < c.slots) (hva : (c.table i).kseg0Alias = va)
    (huniq : ∀ j, j < c.slots → (c.table j).kseg0Alias = va → j = i) :
    c.findAlias va = some i := by
  unfold findAlias
  cases hf : (List.range c.slots).find? (fun j => (c.table j).kseg0Alias == va) with
  | none =>
    rw [List.find?_eq_none] at hf
    exact absurd (beq_iff_eq.2 hva) (hf i (List.mem_range.2 hi))
  | some j =>
    have hj := List.mem_range.1 (List.mem_of_find?_eq_some hf)
    have hjva := List.find?_some hf
    rw [huniq j hj (beq_iff_eq.1 hjva)]

theorem findAlias_some {va i : Nat} (h : c.findAlias va = some i) :
    i < c.slots ∧ (c.table i).kseg0Alias = va := by
  refine ⟨List.mem_range.1 (List.mem_of_find?_eq_some h), ?_⟩
  have hi := List.find?_some h
  exact beq_iff_eq.1 hi

end Tracking

/-! ## The table and the live allocations -/

/-- The table describes live allocations, each in at most one slot.  The bound
on the number of slots is what keeps the doubling from wrapping. -/
structure TableOk (c : Tracking) (live : List Allocation) : Prop where
  nodup : live.Nodup
  entries : ∀ i, i < c.slots → c.table i = Entry.blank ∨ ∃ a ∈ live, c.table i = a.entry
  unique : ∀ i j, i < c.slots → j < c.slots → (c.table i).kseg0Alias ≠ 0 →
    (c.table i).kseg0Alias = (c.table j).kseg0Alias → i = j
  hint : c.hint < c.slots
  bound : c.slots ≤ 2 ^ 16

/-- Every live allocation has its entry. -/
def Recorded (c : Tracking) (live : List Allocation) : Prop :=
  ∀ a ∈ live, ∃ i, i < c.slots ∧ c.table i = a.entry

namespace TableOk

variable {c : Tracking} {live : List Allocation}

/-- A slot that is taken describes a live allocation. -/
theorem taken (h : TableOk c live) {i : Nat} (hi : i < c.slots)
    (hne : (c.table i).kseg0Alias ≠ 0) : ∃ a ∈ live, c.table i = a.entry := by
  refine (h.entries i hi).resolve_left (fun hb => hne ?_)
  rw [hb]
  rfl

theorem setHint (h : TableOk c live) {hint : Nat} (hlt : hint < c.slots) :
    TableOk { c with hint := hint } live := { h with hint := hlt }

theorem setSupply (h : TableOk c live) (supply : Supply) :
    TableOk { c with supply := supply } live := { h with }

/-- A table with no free slot has no more slots than the machine has pages. -/
theorem full (h : TableOk c live) (hlow : ∀ a ∈ live, a.base < 2 ^ 15)
    (hfull : ∀ i, i < c.slots → (c.table i).kseg0Alias ≠ 0) : c.slots ≤ 2 ^ 15 := by
  have hmaps : ∀ i ∈ Finset.range c.slots, (c.table i).pa / pageSize ∈ Finset.range (2 ^ 15) := by
    intro i hi
    obtain ⟨a, ha, he⟩ := h.taken (Finset.mem_range.1 hi) (hfull i (Finset.mem_range.1 hi))
    rw [he, Finset.mem_range]
    show a.base * pageSize / pageSize < 2 ^ 15
    rw [Nat.mul_div_cancel _ (by decide)]
    exact hlow a ha
  have hinj : Set.InjOn (fun i => (c.table i).pa / pageSize) (Finset.range c.slots) := by
    intro i hi j hj hij
    have hi' := Finset.mem_range.1 (Finset.mem_coe.1 hi)
    have hj' := Finset.mem_range.1 (Finset.mem_coe.1 hj)
    obtain ⟨a, -, hea⟩ := h.taken hi' (hfull i hi')
    obtain ⟨b, -, heb⟩ := h.taken hj' (hfull j hj')
    simp only [hea, heb] at hij
    have hbase : a.base * pageSize / pageSize = b.base * pageSize / pageSize := hij
    rw [Nat.mul_div_cancel _ (by decide), Nat.mul_div_cancel _ (by decide)] at hbase
    refine h.unique i j hi' hj' (hfull i hi') ?_
    rw [hea, heb]
    show nxkKseg0Base + a.base * pageSize = nxkKseg0Base + b.base * pageSize
    rw [hbase]
  have hcard := Finset.card_le_card_of_injOn _ hmaps hinj
  rwa [Finset.card_range, Finset.card_range] at hcard

/-- The slots after a doubling that was asked for by a full table. -/
theorem grown_slots {oldSlots : Nat} (hle : oldSlots ≤ 2 ^ 15) :
    oldSlots * 2 % 2 ^ 32 = oldSlots * 2 := by
  omega

theorem grow (h : TableOk c live) {oldSlots : Nat} (hle : oldSlots ≤ 2 ^ 15) :
    TableOk (c.nxpContigGrow oldSlots) live := by
  unfold Tracking.nxpContigGrow
  split_ifs with hsame
  · rw [grown_slots hle]
    have hpos := h.hint
    have hold : ∀ i, (if i < oldSlots then c.table i else Entry.blank).kseg0Alias ≠ 0 →
        i < oldSlots := by
      intro i hne
      by_contra hge
      rw [if_neg hge] at hne
      exact hne rfl
    refine ⟨h.nodup, ?_, ?_, ?_, ?_⟩
    · intro i _
      by_cases hi : i < oldSlots
      · simp only [if_pos hi]
        exact h.entries i (by omega)
      · simp only [if_neg hi]
        exact .inl trivial
    · intro i j _ _ hne heq
      simp only at hne heq
      have hi := hold i hne
      have hj := hold j (heq ▸ hne)
      rw [if_pos hi] at hne heq
      rw [if_pos hj] at heq
      exact h.unique i j (by omega) (by omega) hne heq
    · show oldSlots < oldSlots * 2
      omega
    · show oldSlots * 2 ≤ 2 ^ 16
      omega
  · exact h

/-- Recording an allocation with a base of its own.  The slot may be taken: its
entry is then lost, which `Recorded` forbids and this invariant does not. -/
theorem record (h : TableOk c live) {slot : Nat} {a : Allocation}
    (hfresh : ∀ b ∈ live, b.base ≠ a.base) :
    TableOk { c with table := update c.table slot a.entry } (a :: live) := by
  have hother : ∀ i, i ≠ slot → i < c.slots → (c.table i).kseg0Alias ≠ a.kseg0Alias := by
    intro i _ hi he
    obtain ⟨b, hb, hbe⟩ := h.taken hi (he ▸ a.kseg0Alias_ne_zero)
    rw [hbe] at he
    exact hfresh b hb (Allocation.base_eq he)
  refine ⟨?_, ?_, ?_, h.hint, h.bound⟩
  · exact List.nodup_cons.2 ⟨fun ha => hfresh a ha rfl, h.nodup⟩
  · intro i hi
    by_cases his : i = slot
    · subst his
      simp only [update_self]
      exact .inr ⟨a, List.mem_cons_self, rfl⟩
    · simp only [update_of_ne his]
      rcases h.entries i hi with hblank | ⟨b, hb, hbe⟩
      · exact .inl hblank
      · exact .inr ⟨b, List.mem_cons_of_mem a hb, hbe⟩
  · intro i j hi hj hne heq
    simp only at hne heq
    by_cases his : i = slot
    · by_cases hjs : j = slot
      · rw [his, hjs]
      · rw [his, update_self, update_of_ne hjs] at heq
        exact absurd heq.symm (hother j hjs hj)
    · rw [update_of_ne his] at hne heq
      by_cases hjs : j = slot
      · rw [hjs, update_self] at heq
        exact absurd heq (hother i his hi)
      · rw [update_of_ne hjs] at heq
        exact h.unique i j hi hj hne heq

/-- Clearing the slot of one allocation. -/
theorem clear (h : TableOk c live) {i : Nat} {a : Allocation} (hi : i < c.slots)
    (hia : c.table i = a.entry) :
    TableOk { c with table := update c.table i Entry.blank }
      (live.filter fun b => b.kseg0Alias ≠ a.kseg0Alias) := by
  refine ⟨h.nodup.filter _, ?_, ?_, h.hint, h.bound⟩
  · intro j hj
    by_cases hji : j = i
    · subst hji
      simp only [update_self]
      exact .inl trivial
    simp only [update_of_ne hji]
    rcases h.entries j hj with hblank | ⟨b, hb, hbe⟩
    · exact .inl hblank
    refine .inr ⟨b, List.mem_filter.2 ⟨hb, ?_⟩, hbe⟩
    rw [decide_eq_true_eq]
    intro he
    refine hji (h.unique j i hj hi ?_ ?_)
    · rw [hbe]
      exact b.kseg0Alias_ne_zero
    · rw [hbe, hia]
      exact he
  · intro j k hj hk hne heq
    simp only at hne heq
    have hnot : ∀ m, (update c.table i Entry.blank m).kseg0Alias ≠ 0 → m ≠ i := by
      rintro m hm rfl
      rw [update_self] at hm
      exact hm rfl
    have hji := hnot j hne
    have hki := hnot k (heq ▸ hne)
    rw [update_of_ne hji] at hne heq
    rw [update_of_ne hki] at heq
    exact h.unique j k hj hk hne heq

/-- A lookup of a recorded allocation finds its entry. -/
theorem findAlias_recorded (h : TableOk c live) (hrec : Recorded c live) {a : Allocation}
    (ha : a ∈ live) : ∃ i, i < c.slots ∧ c.table i = a.entry ∧
      c.findAlias a.kseg0Alias = some i := by
  obtain ⟨i, hi, hia⟩ := hrec a ha
  refine ⟨i, hi, hia, Tracking.findAlias_eq hi (by rw [hia]; rfl) ?_⟩
  intro j hj hja
  refine h.unique j i hj hi ?_ ?_
  · rw [hja]
    exact a.kseg0Alias_ne_zero
  · rw [hja, hia]
    rfl

end TableOk

namespace Recorded

variable {c : Tracking} {live : List Allocation}

theorem grow (h : Recorded c live) {oldSlots : Nat} (hle : oldSlots ≤ 2 ^ 15) :
    Recorded (c.nxpContigGrow oldSlots) live := by
  unfold Tracking.nxpContigGrow
  split_ifs with hsame
  · rw [TableOk.grown_slots hle]
    intro a ha
    obtain ⟨i, hi, hia⟩ := h a ha
    refine ⟨i, ?_, ?_⟩
    · show i < oldSlots * 2
      omega
    · simp only [if_pos (hsame ▸ hi)]
      exact hia
  · exact h

/-- Recording into a free slot loses no entry. -/
theorem record (h : Recorded c live) {slot : Nat} {a : Allocation} (hslot : slot < c.slots)
    (hfree : (c.table slot).kseg0Alias = 0) :
    Recorded { c with table := update c.table slot a.entry } (a :: live) := by
  intro b hb
  rcases List.mem_cons.1 hb with rfl | hb
  · exact ⟨slot, hslot, update_self ..⟩
  obtain ⟨i, hi, hib⟩ := h b hb
  refine ⟨i, hi, ?_⟩
  have his : i ≠ slot := by
    rintro rfl
    rw [hib] at hfree
    exact b.kseg0Alias_ne_zero hfree
  show update c.table slot a.entry i = b.entry
  rw [update_of_ne his]
  exact hib

/-- Clearing the slot with an address loses only the allocation at it. -/
theorem clear (h : Recorded c live) {i va : Nat} (hia : (c.table i).kseg0Alias = va) :
    Recorded { c with table := update c.table i Entry.blank }
      (live.filter fun b => b.kseg0Alias ≠ va) := by
  intro b hb
  obtain ⟨hb, hne⟩ := List.mem_filter.1 hb
  obtain ⟨j, hj, hjb⟩ := h b hb
  refine ⟨j, hj, ?_⟩
  have hji : j ≠ i := by
    rintro rfl
    rw [hjb] at hia
    exact (of_decide_eq_true hne) hia
  show update c.table i Entry.blank j = b.entry
  rw [update_of_ne hji]
  exact hjb

end Recorded

/-! ## Taking and returning pages -/

/-- Both ways to take a run process the pages of one candidate; a free run is
one in which nothing moves. -/
theorem takeContiguous_relocated {s t : Supply} {w : Window} {base : Nat}
    {moves : List Supply.Move} (h : Inv s) (hres : takeContiguous s w = (t, base, moves)) :
    (t = s ∧ base = 0 ∧ moves = []) ∨
      ∃ b hi, 0 < w.runPages ∧ s.InRunWindow w.runPages w.lowPfn w.highPfn b ∧
        hi ≤ b + w.runPages ∧ (∀ q, inRun b w.runPages q = true → s.Takeable q) ∧
        Relocated s t b (b + w.runPages - 1) b hi moves ∧
        (base ≠ 0 → base = b ∧ hi = b + w.runPages) := by
  unfold takeContiguous at hres
  rcases h.takeRun_spec w.runPages w.lowPfn w.highPfn w.alignPages with hnone | hyes
  · rw [hnone] at hres
    rcases h.takeRunRelocate_spec hres with hno | hreloc
    · exact .inl hno
    · obtain ⟨b, hi, hpos, hwin, -, hhi, htake, hmoved, hdone⟩ := hreloc
      exact .inr ⟨b, hi, hpos, hwin, hhi, htake, hmoved, hdone⟩
  · obtain ⟨t', b, hrun, htook, hpos, hwin, -⟩ := hyes
    rw [hrun] at hres
    have hb := hwin.1
    simp only [if_neg (show b ≠ 0 by omega), Prod.mk.injEq] at hres
    obtain ⟨rfl, rfl, rfl⟩ := hres
    exact .inr ⟨b, b + w.runPages, hpos, hwin, Nat.le_refl _,
      fun q hq => .inl (htook.were_free q hq), htook.relocated, fun _ => ⟨rfl, rfl⟩⟩

/-- The base of a successful take lies in the table and its run is newly
pinned. -/
theorem takeContiguous_spec {s t : Supply} {w : Window} {base : Nat}
    {moves : List Supply.Move} (h : Inv s) (hres : takeContiguous s w = (t, base, moves)) :
    Inv t ∧ t.highestPfn = s.highestPfn ∧ (∀ p, s.Pinned p → t.Pinned p) ∧
      (base ≠ 0 → PinnedRun s t base w.runPages ∧ base + w.runPages ≤ s.highestPfn + 1) := by
  rcases takeContiguous_relocated h hres with ⟨rfl, rfl, -⟩ | hreloc
  · exact ⟨h, rfl, fun _ hp => hp, absurd rfl⟩
  obtain ⟨b, hi, hpos, hwin, hhi, htake, hmoved, hdone⟩ := hreloc
  have hkeep : ∀ p, s.Pinned p → t.Pinned p := by
    intro p hp
    refine hmoved.pinned (fun q h1 h2 => htake q ?_) hp
    rw [inRun_iff]
    omega
  refine ⟨hmoved.inv, hmoved.highest, hkeep, ?_⟩
  intro h0
  obtain ⟨rfl, rfl⟩ := hdone h0
  have hin := hwin.2.2.2
  refine ⟨⟨hmoved.inv, hmoved.highest, hkeep, ?_, ?_⟩, by omega⟩
  · intro q hq hp
    exact hp.not_takeable (htake q hq)
  · intro q hq
    rw [inRun_iff] at hq
    refine ⟨?_, ?_, hmoved.run_links q hq.1 hq.2⟩
    · omega
    · rw [hmoved.highest]
      omega

/-- The shrinking loop over pinned pages. -/
theorem claimShrink_spec {s : Supply} (h : Inv s) (base n : Nat)
    (hpin : ∀ q, inRun base n q = true → s.Pinned q) :
    Returned s (claimShrink s base n) base n := by
  induction n generalizing s base with
  | zero => exact Returned.nil h base
  | succ n ih =>
    have hbase : s.Pinned base := hpin base (inRun_iff.2 (by omega))
    refine Returned.cons h hbase (ih (h.giveBack hbase.1 hbase.2.1 hbase.not_free) _ ?_)
    intro q hq
    rw [inRun_iff] at hq
    exact h.return_pinned hbase.1 hbase.not_free (hpin q (inRun_iff.2 (by omega))) (by omega)

/-- The loop of `NxpHeapFree` is the same walk over physical addresses. -/
theorem returnPages_eq {base n : Nat} (hle : base + n ≤ 2 ^ 15) (s : Supply) :
    returnPages s (base * pageSize) n = claimShrink s base n := by
  induction n generalizing s base with
  | zero => rfl
  | succ n ih =>
    have hbytes : base * pageSize + pageSize < 2 ^ 32 := by
      rw [show pageSize = 4096 from rfl]
      omega
    have hpage : (base * pageSize) >>> pageShift = base := by
      rw [show (base * pageSize) >>> pageShift = base * pageSize / 2 ^ 12 from
        Nat.shiftRight_eq_div_pow _ _]
      exact Nat.mul_div_cancel base (by decide)
    have hnext : wadd (base * pageSize) pageSize = (base + 1) * pageSize := by
      rw [wadd_of_lt hbytes, Nat.add_mul, Nat.one_mul]
    rw [returnPages, claimShrink, hpage, hnext, ih (by omega)]

end Roswell.Ports.Contig
