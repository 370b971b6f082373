import Roswell.Ports.TitleVm

/-!
# Frames and page tables of the title range

`Frames` is the invariant between the page tables of the title range and the
page supply: a nonzero entry holds a page in use whose owner word is that very
entry, a span without a page table has no entries, and `NxvCommitted` counts
the nonzero entries.  Since an owner word names one entry, no two entries hold
the same frame.

The four elementary updates (rewriting the low bits of an entry, mapping a
fresh page, dropping a page, creating a page table) each have one lemma.
`Changed P s t` composes them along a loop: only title entries in `P` and page
directory entries of the range differ, and the invariant holds again.
-/

namespace Roswell.Ports.TitleVm

open Verified.Word PageSupply PageTables Function Vm

/-- The virtual pages of the title range. -/
@[reducible] def TitlePage (p : Nat) : Prop := 0x10 ≤ p ∧ p < 0x7FFE0

/-- Self-map indices of entries for title addresses: their own and those of
their page tables. -/
def TitleEntry (i : Nat) : Prop := TitlePage i ∨ (0xC0000 ≤ i ∧ i < 0xC0200)

/-- The entry carries the transient mark of the commit in progress. -/
def fresh (entry : Nat) : Bool := flagOn entry nxvPteFresh

/-- The title pages with a nonzero entry. -/
def committedPages (pt : Nat → Nat) : Finset Nat :=
  (Finset.Ico 0x10 0x7FFE0).filter (fun p => pt p ≠ 0)

/-- The frame is a page in use that belongs to the entry at index `i`. -/
structure OwnedBy (s : Supply) (pfn i : Nat) : Prop where
  pos : 0 < pfn
  le : pfn ≤ s.highestPfn
  inUse : s.free pfn = false
  owner : s.links pfn = i

namespace OwnedBy

variable {s t : Supply} {pfn i page : Nat}

/-- Ownership survives a take: the page taken was free. -/
theorem took (h : OwnedBy s pfn i) (htook : Took s t page) : OwnedBy t pfn i where
  pos := h.pos
  le := by rw [htook.highest]; exact h.le
  inUse := htook.inUse h.inUse
  owner := by rw [htook.links pfn h.inUse]; exact h.owner

theorem setEntry (h : OwnedBy s pfn i) (hne : pfn ≠ page) (v : Nat) :
    OwnedBy (s.setEntry page v) pfn i where
  pos := h.pos
  le := h.le
  inUse := by
    rw [Supply.free, Supply.setEntry_links, update_of_ne hne]
    exact h.inUse
  owner := by
    rw [Supply.setEntry_links, update_of_ne hne]
    exact h.owner

/-- Ownership survives a new owner of the page taken. -/
theorem beside (h : OwnedBy s pfn i) (htook : Took s t page) (v : Nat) :
    OwnedBy (t.setEntry page v) pfn i := by
  refine (h.took htook).setEntry ?_ v
  intro e
  have hnew := htook.was_free
  rw [← e, h.inUse] at hnew
  contradiction

/-- Ownership survives the return of another page. -/
theorem giveBack (h : OwnedBy s pfn i) (hinv : Inv s) (h0 : 0 < page)
    (hle : page ≤ s.highestPfn) (hf : s.free page = false) (hne : pfn ≠ page) :
    OwnedBy (s.nxkPageSupplyReturn page) pfn i where
  pos := h.pos
  le := by rw [Inv.return_highestPfn]; exact h.le
  inUse := by
    rw [hinv.return_free h0.ne' hle hf, h.inUse]
    simp [hne]
  owner := by rw [hinv.return_links h0.ne' hf h.inUse hne]; exact h.owner

/-- A page just taken, with its owner recorded. -/
theorem fresh (htook : Took s t page) (hpos : 0 < page) (hle : page ≤ s.highestPfn)
    (hi : i < 2 ^ 20) :
    t.nxkPageSupplySetOwner page (ownerPteVa i) = t.setEntry page i ∧
      OwnedBy (t.setEntry page i) page i ∧ Inv (t.setEntry page i) := by
  have hle' : page ≤ t.highestPfn := by rw [htook.highest]; exact hle
  have hinv := htook.inv.setEntry htook.not_free (Nat.lt_trans hi (by decide))
  refine ⟨setOwner_entry hpos hle' htook.not_free hi, ⟨hpos, hle', ?_, ?_⟩, hinv⟩
  · rw [Supply.free, Supply.setEntry_links, update_self]
    exact entryFree_of_lt (Nat.lt_trans hi (by decide))
  · rw [Supply.setEntry_links, update_self]

end OwnedBy

/-- The pages `NxvEnsurePageTable` takes: one if there is no page table yet. -/
def Vm.tableAt (s : Vm) (p : Nat) : Nat :=
  if present (s.mem.pt (0xC0000 + p / 1024)) = false then 1 else 0

/-- The pages a commit takes for one page: a page table if there is none, and a
frame if the entry is empty. -/
def Vm.framesAt (s : Vm) (p : Nat) : Nat :=
  (if present (s.mem.pt (0xC0000 + p / 1024)) = false then 1 else 0) +
    if s.mem.pt p = 0 then 1 else 0

/-- The page tables after a page was worked on: its own is there, the others are
as before. -/
structure Tabled (s t : Vm) (p : Nat) : Prop where
  own : present (t.mem.pt (0xC0000 + p / 1024)) = true
  other : ∀ k, k ≠ p / 1024 → k < 0x200 → t.mem.pt (0xC0000 + k) = s.mem.pt (0xC0000 + k)

/-- The invariant between page tables, supply and commit charge. -/
structure Frames (s : Vm) : Prop where
  supply : Inv s.mem.supply
  owned : ∀ p, TitlePage p → s.mem.pt p ≠ 0 →
    OwnedBy s.mem.supply (frame (s.mem.pt p)) p
  entry_lt : ∀ p, TitlePage p → s.mem.pt p < 2 ^ 32
  table : ∀ p, p < 0x80000 → present (s.mem.pt (0xC0000 + p / 1024)) = false →
    s.mem.pt p = 0
  count : s.committed = pageSize * (committedPages s.mem.pt).card

/-- `t` differs from `s` in entries of `P` and in page tables only. -/
structure Changed (P : Nat → Prop) (s t : Vm) : Prop where
  frames : Frames t
  regions : t.regions = s.regions
  reserved : t.reserved = s.reserved
  other : ∀ q, TitlePage q → ¬P q → t.mem.pt q = s.mem.pt q
  outside : ∀ i, ¬TitleEntry i → t.mem.pt i = s.mem.pt i

namespace Changed

variable {P Q : Nat → Prop} {s t u : Vm}

theorem refl (h : Frames s) : Changed P s s := ⟨h, rfl, rfl, fun _ _ _ => rfl, fun _ _ => rfl⟩

theorem mono (h : Changed P s t) (hPQ : ∀ q, P q → Q q) : Changed Q s t :=
  ⟨h.frames, h.regions, h.reserved, fun q hq hn => h.other q hq (fun hp => hn (hPQ q hp)),
    h.outside⟩

theorem trans (h : Changed P s t) (h' : Changed P t u) : Changed P s u where
  frames := h'.frames
  regions := h'.regions.trans h.regions
  reserved := h'.reserved.trans h.reserved
  other := fun q hq hn => (h'.other q hq hn).trans (h.other q hq hn)
  outside := fun i hi => (h'.outside i hi).trans (h.outside i hi)

end Changed

/-! ## Arithmetic of page loops -/

theorem pageSpan_mul (p e : Nat) : pageSpan (p * pageSize) (e * pageSize) = e - p := by
  unfold pageSpan pageSize
  omega

variable {p : Nat}

/-- The page after any but the last page of the address space. -/
theorem succ_page (hp : p + 1 < 2 ^ 20) :
    wadd (p * pageSize) pageSize = (p + 1) * pageSize := by
  unfold pageSize
  rw [wadd_of_lt (by omega)]
  omega

theorem next_page (hp : p < 0x80000) :
    wadd (p * pageSize) pageSize = (p + 1) * pageSize := succ_page (by omega)

theorem prev_page (hp : p < 0x80000) :
    wsub ((p + 1) * pageSize) pageSize = p * pageSize := by
  unfold pageSize
  rw [wsub_of_le (by omega) (by omega)]
  omega

theorem page_lt {p e : Nat} : p * pageSize < e * pageSize ↔ p < e := by
  unfold pageSize
  omega

theorem TitlePage.lt (h : TitlePage p) : p < 0x80000 := Nat.lt_trans h.2 (by decide)

/-! ## Entry bits -/

/-- The entry bits `NxvProtectToPte` produces: they fit below the frame, mark
the page committed, and never carry the transient mark. -/
structure EntryBits (bits : Nat) : Prop where
  lt : bits < 2 ^ 12
  unmarked : fresh bits = false

theorem nxvCaching_cases (protect : Nat) :
    nxvCaching protect = 0 ∨ nxvCaching protect = nxvPtePcd ∨
      nxvCaching protect = nxvPtePwt ∨ nxvCaching protect = nxvPtePcd ||| nxvPtePwt := by
  unfold nxvCaching
  split <;> split <;> simp

theorem nxvProtectToPte_bits {protect bits : Nat} (h : nxvProtectToPte protect = some bits) :
    EntryBits bits := by
  have hcases := nxvCaching_cases protect
  unfold nxvProtectToPte at h
  generalize nxvCaching protect = caching at h hcases
  simp only at h
  split at h
  · contradiction
  split at h
  · split at h
    · contradiction
    · cases h
      exact ⟨by decide, by decide⟩
  · split at h
    · cases h
      rcases hcases with rfl | rfl | rfl | rfl <;> exact ⟨by decide, by decide⟩
    · split at h
      · cases h
        rcases hcases with rfl | rfl | rfl | rfl <;> exact ⟨by decide, by decide⟩
      · contradiction

theorem fresh_marked (pfn bits : Nat) : fresh (mkEntry pfn (bits ||| nxvPteFresh)) = true := by
  unfold fresh flagOn mkEntry
  rw [bne_iff_ne, Nat.and_or_distrib_right, Nat.and_or_distrib_right, Nat.and_self]
  intro h
  rw [Nat.or_eq_zero_iff, Nat.or_eq_zero_iff] at h
  exact absurd h.2.2 (by decide)

theorem fresh_reprotect {e bits : Nat} (h : EntryBits bits) :
    fresh (frameBits e ||| bits) = false := by
  have hb : bits &&& nxvPteFresh = 0 := by
    simpa [fresh, flagOn] using h.unmarked
  unfold fresh flagOn frameBits
  rw [Nat.and_or_distrib_right, hb, Nat.and_assoc,
    show (0xFFFFF000 &&& nxvPteFresh) = 0 by decide, Nat.and_zero, Nat.or_zero]
  rfl

theorem fresh_cleared (e : Nat) : fresh (e &&& 0xFFFFFBFF) = false := by
  unfold fresh flagOn
  rw [Nat.and_assoc, show (0xFFFFFBFF &&& nxvPteFresh) = 0 by decide, Nat.and_zero]
  rfl

theorem EntryBits.marked_lt {bits : Nat} (h : EntryBits bits) : bits ||| nxvPteFresh < 2 ^ 12 :=
  Nat.or_lt_two_pow h.lt (by decide)

theorem present_table (pfn : Nat) : present (mkEntry pfn (nxvPteP ||| nxvPteRw)) = true :=
  present_mkEntry pfn _

/-! ## Counting committed pages -/

theorem mem_committedPages {pt : Nat → Nat} :
    p ∈ committedPages pt ↔ TitlePage p ∧ pt p ≠ 0 := by
  simp [committedPages, TitlePage]

theorem committedPages_congr {pt pt' : Nat → Nat}
    (h : ∀ q, TitlePage q → (pt' q ≠ 0 ↔ pt q ≠ 0)) : committedPages pt' = committedPages pt := by
  ext q
  rw [mem_committedPages, mem_committedPages]
  constructor
  · exact fun hq => ⟨hq.1, (h q hq.1).1 hq.2⟩
  · exact fun hq => ⟨hq.1, (h q hq.1).2 hq.2⟩

/-- Filling an empty entry adds one page to the count. -/
theorem committedPages_fill {pt pt' : Nat → Nat} (hp : TitlePage p)
    (h0 : pt p = 0) (h1 : pt' p ≠ 0) (hother : ∀ q, TitlePage q → q ≠ p → pt' q = pt q) :
    (committedPages pt').card = (committedPages pt).card + 1 := by
  have hset : committedPages pt' = insert p (committedPages pt) := by
    ext q
    rw [Finset.mem_insert, mem_committedPages, mem_committedPages]
    by_cases hq : q = p
    · subst hq
      exact iff_of_true ⟨hp, h1⟩ (Or.inl rfl)
    · constructor
      · exact fun h => .inr ⟨h.1, by rw [← hother q h.1 hq]; exact h.2⟩
      · intro h
        have h' := h.resolve_left hq
        exact ⟨h'.1, by rw [hother q h'.1 hq]; exact h'.2⟩
  have hnot : p ∉ committedPages pt := fun hm => (mem_committedPages.1 hm).2 h0
  rw [hset, Finset.card_insert_of_notMem hnot]

/-- One page more on the commit charge. -/
theorem charge_page {c n : Nat} (hc : c = pageSize * n) (hn : n + 1 ≤ 0x7FFD0) :
    wadd c pageSize = pageSize * (n + 1) := by
  unfold pageSize at hc ⊢
  rw [wadd_of_lt (by omega)]
  omega

/-- One page less on the commit charge. -/
theorem discharge_page {c n : Nat} (hc : c = pageSize * (n + 1)) (hn : n + 1 ≤ 0x7FFD0) :
    wsub c pageSize = pageSize * n := by
  unfold pageSize at hc ⊢
  rw [wsub_of_le (by omega) (by omega)]
  omega

theorem card_committedPages_le (pt : Nat → Nat) : (committedPages pt).card ≤ 0x7FFD0 := by
  have hle := Finset.card_filter_le (Finset.Ico 0x10 0x7FFE0) (fun p => pt p ≠ 0)
  rw [Nat.card_Ico] at hle
  exact hle

namespace Frames

variable {s : Vm} {p : Nat}

/-- A committed page has a page table above it. -/
theorem table_present (h : Frames s) (hp : TitlePage p) (hne : s.mem.pt p ≠ 0) :
    present (s.nxvPde (p * pageSize)) = true := by
  rw [nxvPde, pdeIndex_mul, ← Bool.not_eq_false]
  exact fun hf => hne (h.table p hp.lt hf)

/-- No two title entries hold the same frame. -/
theorem frame_inj (h : Frames s) {q : Nat} (hp : TitlePage p) (hq : TitlePage q)
    (hpne : s.mem.pt p ≠ 0) (hqne : s.mem.pt q ≠ 0)
    (he : frame (s.mem.pt p) = frame (s.mem.pt q)) : p = q := by
  have h1 := (h.owned p hp hpne).owner
  have h2 := (h.owned q hq hqne).owner
  rw [he] at h1
  exact h1.symm.trans h2

/-! ## Elementary updates -/

/-- The entry of one title page changes, and what it holds then is its own. -/
theorem entry (h : Frames s) (hp : TitlePage p) {t : Vm} {e : Nat}
    (hpt : t.mem.pt = update s.mem.pt p e)
    (hlists : t.regions = s.regions ∧ t.reserved = s.reserved) (hsupply : Inv t.mem.supply)
    (hlt : e < 2 ^ 32) (hself : e ≠ 0 → OwnedBy t.mem.supply (frame e) p)
    (howned : ∀ q, TitlePage q → q ≠ p → s.mem.pt q ≠ 0 →
      OwnedBy t.mem.supply (frame (s.mem.pt q)) q)
    (htable : present (s.mem.pt (0xC0000 + p / 1024)) = false → e = 0)
    (hcount : t.committed = pageSize * (committedPages t.mem.pt).card) :
    Changed (· = p) s t ∧ t.mem.pt p = e := by
  have hother : ∀ i, i ≠ p → t.mem.pt i = s.mem.pt i := by
    intro i hi
    rw [hpt, update_of_ne hi]
  have hat : t.mem.pt p = e := by rw [hpt, update_self]
  refine ⟨⟨⟨hsupply, ?_, ?_, ?_, hcount⟩, hlists.1, hlists.2, fun q _ => hother q, ?_⟩, hat⟩
  · intro q hq hqne
    by_cases hqp : q = p
    · subst hqp
      rw [hat] at hqne ⊢
      exact hself hqne
    · rw [hother q hqp] at hqne ⊢
      exact howned q hq hqp hqne
  · intro q hq
    by_cases hqp : q = p
    · rw [hqp, hat]
      exact hlt
    · rw [hother q hqp]
      exact h.entry_lt q hq
  · intro q hq habs
    rw [hother _ (by omega)] at habs
    by_cases hqp : q = p
    · subst hqp
      rw [hat]
      exact htable habs
    · rw [hother q hqp]
      exact h.table q hq habs
  · intro i hi
    exact hother i (fun heq => hi (.inl (heq ▸ hp)))

/-- Rewriting a nonzero entry without changing its frame. -/
theorem rewrite (h : Frames s) (hp : TitlePage p) (hne : s.mem.pt p ≠ 0) {e : Nat}
    (hfr : frame e = frame (s.mem.pt p)) (hlt : e < 2 ^ 32) :
    Changed (· = p) s (s.setPte (p * pageSize) e) ∧
      (s.setPte (p * pageSize) e).mem.pt p = e ∧ e ≠ 0 := by
  have hown := h.owned p hp hne
  have hpt : (s.setPte (p * pageSize) e).mem.pt = update s.mem.pt p e := by
    rw [setPte, pteIndex_mul]
    rfl
  have he0 : e ≠ 0 := ne_zero_of_frame (by rw [hfr]; exact hown.pos.ne')
  have hcommitted : committedPages (s.setPte (p * pageSize) e).mem.pt =
      committedPages s.mem.pt := by
    rw [hpt]
    refine committedPages_congr ?_
    exact (forall_update_iff s.mem.pt fun q x => TitlePage q → (x ≠ 0 ↔ s.mem.pt q ≠ 0)).2
      ⟨fun _ => iff_of_true he0 hne, fun _ _ _ => Iff.rfl⟩
  obtain ⟨hch, hself⟩ := h.entry hp hpt ⟨rfl, rfl⟩ h.supply hlt (fun _ => by rw [hfr]; exact hown)
    (fun q hq _ => h.owned q hq) (fun habs => absurd (h.table p hp.lt habs) hne)
    (by rw [hcommitted]; exact h.count)
  exact ⟨hch, hself, he0⟩

/-- Mapping a fresh page at an empty entry, with its owner recorded. -/
theorem map (h : Frames s) (hp : TitlePage p) (h0 : s.mem.pt p = 0)
    (hpde : present (s.nxvPde (p * pageSize)) = true) {supply : Supply} {pfn bits : Nat}
    (htook : Took s.mem.supply supply pfn) (hbits : bits < 2 ^ 12) {t : Vm}
    (ht : t = { s with
      committed := wadd s.committed pageSize
      mem :=
        { pt := update s.mem.pt p (mkEntry pfn bits)
          supply := supply.nxkPageSupplySetOwner pfn (ownerPteVa p) } }) :
    Changed (· = p) s t ∧ t.mem.pt p = mkEntry pfn bits ∧ t.mem.pt p ≠ 0 := by
  have hpos := Nat.pos_of_ne_zero (h.supply.free_pos htook.was_free)
  have hle := h.supply.free_le htook.was_free
  obtain ⟨hset, hown, hinv⟩ :=
    OwnedBy.fresh htook hpos hle (Nat.lt_trans hp.lt (by decide))
  have hfr := frame_mkEntry pfn hbits
  have he0 : mkEntry pfn bits ≠ 0 := ne_zero_of_frame (by rw [hfr]; exact hpos.ne')
  have hpt : t.mem.pt = update s.mem.pt p (mkEntry pfn bits) := by rw [ht]
  have hsupply : t.mem.supply = supply.setEntry pfn p := by rw [ht, ← hset]
  have hmax := h.supply.highest_lt
  have hcount : t.committed = pageSize * (committedPages t.mem.pt).card := by
    have hcard : (committedPages t.mem.pt).card = (committedPages s.mem.pt).card + 1 := by
      rw [hpt]
      exact committedPages_fill hp h0 (by rwa [update_self]) fun q _ hq => update_of_ne hq ..
    have hle' := card_committedPages_le t.mem.pt
    rw [hcard] at hle' ⊢
    rw [ht]
    exact charge_page h.count hle'
  have howned : ∀ q, TitlePage q → q ≠ p → s.mem.pt q ≠ 0 →
      OwnedBy t.mem.supply (frame (s.mem.pt q)) q := by
    intro q hq _ hqne
    rw [hsupply]
    exact (h.owned q hq hqne).beside htook p
  rw [nxvPde, pdeIndex_mul] at hpde
  obtain ⟨hch, hself⟩ := h.entry hp hpt ⟨by rw [ht], by rw [ht]⟩ (by rw [hsupply]; exact hinv)
    (mkEntry_lt (by omega) hbits) (fun _ => by rw [hsupply, hfr]; exact hown) howned
    (fun habs => absurd (hpde.symm.trans habs) (by decide)) hcount
  exact ⟨hch, hself, hself.trans_ne he0⟩

/-- Dropping a committed page. -/
theorem drop (h : Frames s) (hp : TitlePage p) (hne : s.mem.pt p ≠ 0) :
    Changed (· = p) s (s.dropPage (p * pageSize)) ∧
      (s.dropPage (p * pageSize)).mem.pt p = 0 := by
  have hown := h.owned p hp hne
  obtain ⟨t, ht⟩ : ∃ t, s.dropPage (p * pageSize) = t := ⟨_, rfl⟩
  obtain ⟨pfn, hpfn⟩ : ∃ pfn, frame (s.mem.pt p) = pfn := ⟨_, rfl⟩
  rw [hpfn] at hown
  obtain ⟨cleared, hcleared⟩ : ∃ cleared, s.mem.supply.setEntry pfn 0 = cleared := ⟨_, rfl⟩
  have hcfree : cleared.free pfn = false := by
    rw [← hcleared, Supply.free, Supply.setEntry_links, update_self]
    rfl
  have hcinv : Inv cleared := by
    rw [← hcleared]
    exact h.supply.setEntry hown.inUse (by decide)
  have hchigh : cleared.highestPfn = s.mem.supply.highestPfn := by rw [← hcleared]; rfl
  have hle : pfn ≤ cleared.highestPfn := by rw [hchigh]; exact hown.le
  have hpt : t.mem.pt = update s.mem.pt p 0 := by
    rw [← ht]
    simp only [dropPage, nxvFreePageAtPte, setPte, pteIndex_mul, Machine.setEntry]
  have hsupply : t.mem.supply = cleared.nxkPageSupplyReturn pfn := by
    rw [← ht, ← hcleared, ← setOwner_none hown.pos hown.le hown.inUse, ← hpfn]
    simp only [dropPage, nxvFreePageAtPte, setPte, nxvPte, pteIndex_mul,
      Machine.setEntry]
  have hcommitted : t.committed = wsub s.committed pageSize := by
    rw [← ht]
    simp only [dropPage, nxvFreePageAtPte, setPte]
  have hregions : t.regions = s.regions ∧ t.reserved = s.reserved := by
    rw [← ht]
    simp only [dropPage, nxvFreePageAtPte, setPte, and_self]
  have hcount : t.committed = pageSize * (committedPages t.mem.pt).card := by
    have hcard : (committedPages s.mem.pt).card = (committedPages t.mem.pt).card + 1 := by
      rw [hpt]
      exact committedPages_fill hp (update_self ..) hne fun q _ hq => (update_of_ne hq ..).symm
    have hle' := card_committedPages_le s.mem.pt
    have hbefore := h.count
    rw [hcard] at hle' hbefore
    rw [hcommitted]
    exact discharge_page hbefore hle'
  rw [ht]
  refine h.entry hp hpt hregions ?_ (by decide) (absurd rfl) ?_ (fun _ => rfl) hcount
  · rw [hsupply]
    exact hcinv.giveBack hown.pos.ne' hle hcfree
  · intro q hq hqp hqne
    -- Another entry holds another frame, so neither the cleared owner word
    -- nor the returned page is its own.
    have hfne : frame (s.mem.pt q) ≠ pfn := by
      intro e
      exact hqp (h.frame_inj hq hp hqne hne (e.trans hpfn.symm))
    have hq' := (h.owned q hq hqne).setEntry hfne 0
    rw [hcleared] at hq'
    rw [hsupply]
    exact hq'.giveBack hcinv hown.pos hle hcfree hfne

/-- `NxvEnsurePageTable` changes no title entry: a new page table is zero
filled, and before it existed its span had no entries.  It succeeds exactly when
the supply has the page for it. -/
theorem ensure (h : Frames s) (hp : TitlePage p) {t : Vm} {ok : Bool}
    (ht : s.nxvEnsurePageTable (p * pageSize) = (t, ok)) :
    Changed (fun _ => False) s t ∧ (ok = true ↔ s.tableAt p ≤ s.mem.supply.genericAvail) ∧
      (ok = true → t.mem.supply.genericAvail + s.tableAt p = s.mem.supply.genericAvail ∧
        Tabled s t p) := by
  unfold nxvEnsurePageTable at ht
  rw [nxvPde, pdeIndex_mul] at ht
  unfold tableAt
  by_cases hpde : present (s.mem.pt (0xC0000 + p / 1024)) = true
  · rw [if_pos hpde] at ht
    cases ht
    rw [if_neg (by simp [hpde])]
    exact ⟨.refl h, iff_of_true rfl (Nat.zero_le _), fun _ => ⟨rfl, hpde, fun _ _ _ => rfl⟩⟩
  rw [if_neg hpde] at ht
  rw [Bool.not_eq_true] at hpde
  rw [if_pos hpde]
  rcases h.supply.takeAny_spec with ⟨hzero, hnone⟩ | ⟨htook, hfl⟩
  · rw [hnone] at ht
    cases ht
    exact ⟨.refl h, iff_of_false (by decide) (by omega), fun hc => by contradiction⟩
  have hone := htook.genericAvail h.supply hfl
  rcases htake : s.mem.supply.nxkPageSupplyTakeAny with ⟨supply, pfn⟩
  rw [htake] at htook hone ht
  simp only at htook hone ht
  have hpos := Nat.pos_of_ne_zero (h.supply.free_pos htook.was_free)
  have hle := h.supply.free_le htook.was_free
  rw [if_neg hpos.ne'] at ht
  obtain ⟨hset, hown, hinv⟩ := OwnedBy.fresh htook hpos hle
    (show 0xC0000 + p / 1024 < 2 ^ 20 by omega)
  rw [hset] at ht
  have hspan : (p * pageSize) >>> 22 = p / 1024 := by
    unfold pageSize
    omega
  rw [hspan, Prod.mk.injEq] at ht
  obtain ⟨ht, rfl⟩ := ht
  have hsupply : t.mem.supply = supply.setEntry pfn (0xC0000 + p / 1024) := by rw [← ht]
  have hpt : t.mem.pt = update
      (fun i => if i / 1024 = p / 1024 then 0 else s.mem.pt i) (0xC0000 + p / 1024)
      (mkEntry pfn (nxvPteP ||| nxvPteRw)) := by rw [← ht]
  have hself : t.mem.pt (0xC0000 + p / 1024) = mkEntry pfn (nxvPteP ||| nxvPteRw) := by
    rw [hpt, update_self]
  -- Entries below the new page table read zero, and did so before.
  have hsame : ∀ i, i ≠ 0xC0000 + p / 1024 → t.mem.pt i = s.mem.pt i := by
    intro i hi
    rw [hpt, update_of_ne hi]
    split_ifs with hin
    · exact (h.table i (by omega) (by rw [hin]; exact hpde)).symm
    · rfl
  have htitle : ∀ q, TitlePage q → q ≠ 0xC0000 + p / 1024 := by
    intro q hq
    omega
  refine ⟨⟨?_, by rw [← ht], by rw [← ht], fun q hq _ => hsame q (htitle q hq), ?_⟩,
    iff_of_true rfl (by omega), fun _ => ⟨?_, ?_, fun k _ _ => hsame _ (by omega)⟩⟩
  · refine
      { supply := by rw [hsupply]; exact hinv
        owned := ?_
        entry_lt := ?_
        table := ?_
        count := ?_ }
    · intro q hq hqne
      rw [hsame q (htitle q hq)] at hqne ⊢
      rw [hsupply]
      exact (h.owned q hq hqne).beside htook _
    · intro q hq
      rw [hsame q (htitle q hq)]
      exact h.entry_lt q hq
    · intro q hq habs
      rw [hsame q (by omega)]
      by_cases hqp : 0xC0000 + q / 1024 = 0xC0000 + p / 1024
      · rw [hqp, hself, present_table] at habs
        contradiction
      · rw [hsame _ hqp] at habs
        exact h.table q hq habs
    · rw [committedPages_congr (fun q hq => by rw [hsame q (htitle q hq)]), ← ht]
      exact h.count
  · intro i hi
    exact hsame i (fun e => hi (.inr (by omega)))
  · rw [hsupply]
    exact hone
  · rw [hself]
    exact present_table pfn

end Frames

end Roswell.Ports.TitleVm
