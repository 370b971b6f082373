import Roswell.Verified.Extents
import Roswell.Ports.PageWindow

/-!
# The system address aperture

Model of `sysva.c`: 64 MiB of kernel addresses that back
`MmAllocateSystemMemory`.  The allocator keeps no list of what it handed out; a
page is occupied when its page-table entry is not zero, and a free call walks
the entries of the range it is given.  Page tables are made on first use and
stay.

`System` adds the blocks handed out, each with the frames that were mapped for
it, so that a free can be compared with the allocation it undoes.
-/

namespace Roswell.Ports.SysVa

open Verified.Word Verified.Runs Verified.Extents PageSupply PageTables Function

def nxkSysmemBase : Nat := 0xD0000000
def nxkSysmemPtCount : Nat := 16
def nxkSysmemPages : Nat := nxkSysmemPtCount * 1024
def nxkSysmemLimit : Nat := nxkSysmemBase + nxkSysmemPages * pageSize

def nxkPdePt : Nat := 0x3
def nxkPteValid : Nat := 0x3

/-- The address of a page of the aperture. -/
def slotVa (slot : Nat) : Nat := nxkSysmemBase + slot <<< 12

/-- `(Size + PAGE_SIZE - 1) >> PAGE_SHIFT`; the sum may wrap. -/
def pagesOf (size : Nat) : Nat := wadd size (pageSize - 1) >>> 12

/-! ## Calls -/

/-- An unbacked page table is an all-free block, a zero entry a free page. -/
def slotFree (m : Machine) (slot : Nat) : Bool :=
  if present (m.pt (pdeIndex (slotVa slot))) then m.pt (pteIndex (slotVa slot)) == 0 else true

def nxpSysVaFindHoleLocked (m : Machine) (pages : Nat) : Option Nat :=
  (holeScan (slotFree m) pages nxkSysmemPages 0 0 0).map slotVa

/-- Back the `n` page tables from `span` on. -/
def backTables : Nat → Nat → Machine → Machine × Bool
  | 0, _, m => (m, true)
  | n + 1, span, m =>
    if present (m.pt (0xC0000 + span)) then backTables n (span + 1) m
    else
      match m.supply.nxkPageSupplyTakeAny with
      | (supply, pfn) =>
        if pfn = 0 then (m, false)
        else
          backTables n (span + 1)
            { m.setTable span (mkEntry pfn nxkPdePt) with supply := supply }

/-- Return the `n` pages mapped from entry `idx` on. -/
def rollBack : Nat → Nat → Machine → Machine
  | 0, _, m => m
  | n + 1, idx, m =>
    rollBack n (idx + 1)
      { m.setEntry idx 0 with supply := m.supply.nxkPageSupplyReturn (frame (m.pt idx)) }

/-- Commit the `n` data pages of a block from its page `i` on. -/
def commitPages (va : Nat) : Nat → Nat → Machine → Machine × Bool
  | 0, _, m => (m, true)
  | n + 1, i, m =>
    match m.supply.nxkPageSupplyTakeAny with
    | (supply, pfn) =>
      if pfn = 0 then (rollBack i (pteIndex va) m, false)
      else
        commitPages va n (i + 1)
          { m.setEntry (pteIndex va + i) (mkEntry pfn nxkPteValid) with supply := supply }

def nxkSysVaAllocate (m : Machine) (size : Nat) : Machine × Option Nat :=
  if size = 0 then (m, none)
  else
    let pages := pagesOf size
    match nxpSysVaFindHoleLocked m pages with
    | none => (m, none)
    | some va =>
      let first := va >>> 22
      let last := (va + pages <<< 12 - 1) >>> 22
      match backTables (last + 1 - first) first m with
      | (m, false) => (m, none)
      | (m, true) =>
        match commitPages va pages 0 m with
        | (m, false) => (m, none)
        | (m, true) => (m, some va)

/-- Free the `n` pages from entry `idx` on, skipping entries that are not
present. -/
def freePages : Nat → Nat → Machine → Machine × Nat
  | 0, _, m => (m, 0)
  | n + 1, idx, m =>
    if present (m.pt idx) then
      match freePages n (idx + 1)
        { m.setEntry idx 0 with supply := m.supply.nxkPageSupplyReturn (frame (m.pt idx)) } with
      | (m, freed) => (m, freed + 1)
    else freePages n (idx + 1) m

def nxkSysVaFree (m : Machine) (va size : Nat) : Machine × Nat :=
  if va = 0 then (m, 0)
  else if va < nxkSysmemBase ∨ nxkSysmemLimit ≤ va then (m, 0)
  else freePages (pagesOf size) (pteIndex va) m

/-! ## Indices -/

/-- The entries of the aperture. -/
def window : Window where
  base := 0xD0000
  pages := 16384
  base_dvd := ⟨832, rfl⟩
  pages_dvd := ⟨16, rfl⟩
  base_ge := by decide
  last_le := by decide

theorem window_has {k : Nat} : window.Has (0xD0000 + k) ↔ k < nxkSysmemPages := by
  show 0xD0000 ≤ 0xD0000 + k ∧ 0xD0000 + k < 0xD0000 + 16384 ↔ k < 16384
  omega

theorem slotVa_eq (slot : Nat) : slotVa slot = (0xD0000 + slot) * pageSize := by
  unfold slotVa nxkSysmemBase pageSize
  omega

theorem pteIndex_slotVa (slot : Nat) : pteIndex (slotVa slot) = 0xD0000 + slot := by
  rw [slotVa_eq, pteIndex_mul]

theorem first_span (slot : Nat) : slotVa slot >>> 22 = (0xD0000 + slot) / 1024 := by
  rw [slotVa_eq, Nat.shiftRight_eq_div_pow]
  unfold pageSize
  omega

theorem last_span {slot pages : Nat} (h : 0 < pages) :
    (slotVa slot + pages <<< 12 - 1) >>> 22 = (0xD0000 + slot + pages - 1) / 1024 := by
  rw [slotVa_eq, Nat.shiftRight_eq_div_pow, Nat.shiftLeft_eq]
  unfold pageSize
  omega

theorem pdeIndex_slotVa (slot : Nat) :
    pdeIndex (slotVa slot) = 0xC0000 + (0xD0000 + slot) / 1024 := by
  rw [slotVa_eq, pdeIndex_mul]

section Loops

variable {m t : Machine} {slot pages i n : Nat}

/-- With the page tables in order, a slot is free when its entry is zero. -/
theorem slotFree_iff (h : Backed window m) (hs : slot < nxkSysmemPages) :
    slotFree m slot = true ↔ m.pt (0xD0000 + slot) = 0 := by
  unfold slotFree
  rw [pteIndex_slotVa, pdeIndex_slotVa]
  split_ifs with hp
  · rw [beq_iff_eq]
  · exact ⟨fun _ => h.table _ (window_has.2 hs) (by simpa using hp), fun _ => rfl⟩

/-- The hole found lies in the aperture and is the lowest of its size. -/
theorem findHole_some (h : Backed window m) {va : Nat}
    (hfind : nxpSysVaFindHoleLocked m pages = some va) :
    ∃ slot, va = slotVa slot ∧ 0 < pages ∧ slot + pages ≤ nxkSysmemPages ∧
      (∀ k, slot ≤ k → k < slot + pages → m.pt (0xD0000 + k) = 0) ∧
      ∀ q, q < slot → ∃ k, q ≤ k ∧ k < q + pages ∧ m.pt (0xD0000 + k) ≠ 0 := by
  obtain ⟨slot, hscan, rfl⟩ := Option.map_eq_some_iff.1 hfind
  have hpos : 0 < pages := by
    by_contra h0
    rw [show pages = 0 by omega, holeScan_zero] at hscan
    exact absurd hscan nofun
  obtain ⟨-, hfit, hhole, hlow⟩ := holeScan_lowest hscan (Nat.zero_le 0) rfl
    (absurd rfl) hpos (fun k _ hk => by omega) (fun q _ hq => by omega)
  refine ⟨slot, rfl, hpos, by omega, ?_, ?_⟩
  · intro k h1 h2
    exact (slotFree_iff h (by omega)).1 (hhole k h1 h2)
  · intro q hq
    by_contra hnone
    refine hlow q (Nat.zero_le q) hq ?_
    intro k h1 h2
    refine (slotFree_iff h (by omega)).2 ?_
    by_contra hne
    exact hnone ⟨k, h1, h2, hne⟩

theorem backTables_spec (h : Backed window m) {span : Nat} (lo : Nat)
    (hspan : ∀ k, span ≤ k → k < span + n → window.Table (0xC0000 + k)) :
    Filled window m (backTables n span m).1 lo lo ∧
      ((backTables n span m).2 = true → ∀ k, span ≤ k → k < span + n →
        present ((backTables n span m).1.pt (0xC0000 + k)) = true) := by
  induction n generalizing span m with
  | zero => exact ⟨.of_same (.refl h) (fun _ _ => rfl) lo, fun _ k h1 h2 => by omega⟩
  | succ n ih =>
    have hrest : ∀ k, span + 1 ≤ k → k < span + 1 + n → window.Table (0xC0000 + k) :=
      fun k h1 h2 => hspan k (by omega) (by omega)
    -- the table of the first span is there before the others are looked at
    have hgo : ∀ u, Filled window m u lo lo → present (u.pt (0xC0000 + span)) = true →
        Filled window m (backTables n (span + 1) u).1 lo lo ∧
          ((backTables n (span + 1) u).2 = true → ∀ k, span ≤ k → k < span + (n + 1) →
            present ((backTables n (span + 1) u).1.pt (0xC0000 + k)) = true) := by
      intro u hu hp
      obtain ⟨hfill, htables⟩ := ih hu.conserves.backed hrest
      refine ⟨hu.trans hfill (fun i h1 h2 => by omega) (Nat.le_refl _) (Nat.le_refl _), ?_⟩
      intro hok k h1 h2
      by_cases hk : k = span
      · rw [hk, hfill.conserves.tables _ (hspan span (Nat.le_refl _) (by omega)) hp]
        exact hp
      · exact htables hok k (by omega) (by omega)
    rw [backTables]
    split_ifs with hp
    · exact hgo m (.of_same (.refl h) (fun _ _ => rfl) lo) hp
    rcases h.supply.takeAny_spec with ⟨-, hnone⟩ | ⟨htook, -⟩
    · simp only [hnone, if_pos]
      exact ⟨.of_same (.refl h) (fun _ _ => rfl) lo, fun hf => absurd hf nofun⟩
    · obtain ⟨hcons, hsame, hpres⟩ := h.newTable htook
        (hspan span (Nat.le_refl _) (by omega)) (by simpa using hp)
        (show nxkPdePt < 2 ^ 12 by decide) (present_mkEntry _ _)
      simp only [if_neg (h.supply.free_pos htook.was_free)]
      exact hgo _ (.of_same hcons hsame lo) hpres

theorem rollBack_spec (h : Backed window m) {idx : Nat}
    (hhas : ∀ k, idx ≤ k → k < idx + n → window.Has k)
    (hne : ∀ k, idx ≤ k → k < idx + n → m.pt k ≠ 0) :
    Emptied window m (rollBack n idx m) idx (idx + n) := by
  induction n generalizing idx m with
  | zero => exact .refl h _
  | succ n ih =>
    have hfirst : Emptied window m { m.setEntry idx 0 with
        supply := m.supply.nxkPageSupplyReturn (frame (m.pt idx)) } idx (idx + 1) :=
      .one (.refl h) (hhas idx (by omega) (by omega)) (hne idx (by omega) (by omega))
    refine hfirst.trans (ih hfirst.conserves.backed ?_ ?_) (by omega)
    · intro k h1 h2
      exact hhas k (by omega) (by omega)
    · intro k h1 h2
      rw [hfirst.entries k (hhas k (by omega) (by omega)), if_neg (by omega)]
      exact hne k (by omega) (by omega)

/-- A range that is mapped throughout is freed as a rollback would. -/
theorem freePages_eq {idx : Nat} (hne : ∀ k, idx ≤ k → k < idx + n → present (m.pt k) = true) :
    freePages n idx m = (rollBack n idx m, n) := by
  induction n generalizing idx m with
  | zero => rfl
  | succ n ih =>
    rw [freePages, if_pos (hne idx (by omega) (by omega)), rollBack, ih]
    intro k h1 h2
    show present (update m.pt idx 0 k) = true
    rw [update_of_ne (by omega)]
    exact hne k (by omega) (by omega)

/-- Of the machine `s` a call starts from, `m` has the first `i` pages of the
block mapped. -/
theorem commitPages_spec {s : Machine}
    (hhas : ∀ k, k < i + n → window.Has (0xD0000 + slot + k))
    (h0 : ∀ k, k < i + n → s.pt (0xD0000 + slot + k) = 0)
    (htable : ∀ k, k < i + n → present (m.pt (0xC0000 + (0xD0000 + slot + k) / 1024)) = true)
    (h : Filled window s m (0xD0000 + slot) (0xD0000 + slot + i)) :
    ((commitPages (slotVa slot) n i m).2 = true →
      Filled window s (commitPages (slotVa slot) n i m).1 (0xD0000 + slot)
        (0xD0000 + slot + i + n)) ∧
    ((commitPages (slotVa slot) n i m).2 = false →
      Conserves window s (commitPages (slotVa slot) n i m).1 ∧
        ∀ j, window.Has j → (commitPages (slotVa slot) n i m).1.pt j = s.pt j) := by
  induction n generalizing i m with
  | zero => exact ⟨fun _ => h, fun hf => absurd hf nofun⟩
  | succ n ih =>
    have hb := h.conserves.backed
    have hat : ∀ j, 0xD0000 + slot ≤ j → j < 0xD0000 + slot + i →
        window.Has j ∧ s.pt j = 0 := by
      intro j h1 h2
      have hk := hhas (j - (0xD0000 + slot)) (by omega)
      have hz := h0 (j - (0xD0000 + slot)) (by omega)
      rw [Nat.add_sub_cancel' h1] at hk hz
      exact ⟨hk, hz⟩
    rw [commitPages, pteIndex_slotVa]
    rcases hb.supply.takeAny_spec with ⟨-, hnone⟩ | ⟨htook, -⟩
    · simp only [hnone, if_pos]
      have hun := rollBack_spec hb (fun j h1 h2 => (hat j h1 h2).1) h.mapped
      refine ⟨fun hf => absurd hf nofun, fun _ => ⟨h.conserves.trans hun.conserves, ?_⟩⟩
      exact hun.undo h (fun j h1 h2 => (hat j h1 h2).2)
    have hone := h.push (by omega) htook (hhas i (by omega)) (h0 i (by omega))
      (htable i (by omega)) (show nxkPteValid < 2 ^ 12 by decide) (present_mkEntry _ _)
    simp only [if_neg (hb.supply.free_pos htook.was_free)]
    have hnext := ih (i := i + 1) (fun k hk => hhas k (by omega)) (fun k hk => h0 k (by omega)) ?_
      hone
    · rwa [show 0xD0000 + slot + (i + 1) + n = 0xD0000 + slot + i + (n + 1) by omega] at hnext
    · intro k hk
      have hne : 0xC0000 + (0xD0000 + slot + k) / 1024 ≠ 0xD0000 + slot + i := fun heq =>
        (hhas i (by omega)).not_table (heq ▸ (hhas k (by omega)).table)
      show present (update m.pt _ _ _) = true
      rw [update_of_ne hne]
      exact htable k (by omega)

end Loops

/-! ## What a call does -/

section Calls

variable {m t : Machine} {size slot pages : Nat}

/-- The page tables that cover a range of the aperture. -/
theorem table_of_span (hfit : slot + pages ≤ nxkSysmemPages) {k : Nat}
    (h1 : (0xD0000 + slot) / 1024 ≤ k) (h2 : k ≤ (0xD0000 + slot + pages - 1) / 1024) :
    window.Table (0xC0000 + k) := by
  have hhas : window.Has (0xD0000 + (k * 1024 - 0xD0000)) := window_has.2 (by omega)
  refine ⟨_, hhas, ?_⟩
  omega

/-- Mapping the block that was found, after its page tables. -/
theorem place_spec (h : Backed window m) (hpos : 0 < pages)
    (hfit : slot + pages ≤ nxkSysmemPages)
    (h0 : ∀ k, slot ≤ k → k < slot + pages → m.pt (0xD0000 + k) = 0) {u : Machine} {ok : Bool}
    (hback : backTables ((slotVa slot + pages <<< 12 - 1) >>> 22 + 1 - slotVa slot >>> 22)
      (slotVa slot >>> 22) m = (u, ok)) :
    Filled window m u (0xD0000 + slot) (0xD0000 + slot) ∧ (ok = true →
      ((commitPages (slotVa slot) pages 0 u).2 = true →
        Filled window m (commitPages (slotVa slot) pages 0 u).1 (0xD0000 + slot)
          (0xD0000 + slot + pages)) ∧
      ((commitPages (slotVa slot) pages 0 u).2 = false →
        Conserves window m (commitPages (slotVa slot) pages 0 u).1 ∧
          ∀ j, window.Has j → (commitPages (slotVa slot) pages 0 u).1.pt j = m.pt j)) := by
  rw [first_span, last_span hpos] at hback
  have htables := backTables_spec h (0xD0000 + slot)
    (fun k h1 h2 => table_of_span hfit h1
      (by omega))
    (n := (0xD0000 + slot + pages - 1) / 1024 + 1 - (0xD0000 + slot) / 1024)
  rw [hback] at htables
  obtain ⟨hfill, hpres⟩ := htables
  refine ⟨hfill, ?_⟩
  intro hok
  refine commitPages_spec ?_ ?_ ?_ hfill
  · intro k hk
    rw [Nat.add_assoc]
    exact window_has.2 (by omega)
  · intro k hk
    rw [Nat.add_assoc]
    exact h0 _ (by omega) (by omega)
  · intro k hk
    exact hpres hok _ (by omega) (by omega)

theorem nxkSysVaAllocate_spec (h : Backed window m) {r : Option Nat}
    (ht : nxkSysVaAllocate m size = (t, r)) :
    (r = none → Conserves window m t ∧ ∀ j, window.Has j → t.pt j = m.pt j) ∧
      ∀ va, r = some va → ∃ slot, va = slotVa slot ∧ 0 < pagesOf size ∧
        slot + pagesOf size ≤ nxkSysmemPages ∧
        (∀ k, slot ≤ k → k < slot + pagesOf size → m.pt (0xD0000 + k) = 0) ∧
        (∀ q, q < slot → ∃ k, q ≤ k ∧ k < q + pagesOf size ∧ m.pt (0xD0000 + k) ≠ 0) ∧
        Filled window m t (0xD0000 + slot) (0xD0000 + slot + pagesOf size) := by
  have hsame : Conserves window m m ∧ ∀ j, window.Has j → m.pt j = m.pt j :=
    ⟨.refl h, fun _ _ => rfl⟩
  unfold nxkSysVaAllocate at ht
  by_cases hsize : size = 0
  · rw [if_pos hsize] at ht
    cases ht
    exact ⟨fun _ => hsame, nofun⟩
  simp only [if_neg hsize] at ht
  cases hfind : nxpSysVaFindHoleLocked m (pagesOf size) with
  | none =>
    simp only [hfind] at ht
    cases ht
    exact ⟨fun _ => hsame, nofun⟩
  | some va =>
    obtain ⟨slot, rfl, hpos, hfit, h0, hlow⟩ := findHole_some h hfind
    simp only [hfind] at ht
    cases hback : backTables ((slotVa slot + pagesOf size <<< 12 - 1) >>> 22 + 1 -
        slotVa slot >>> 22) (slotVa slot >>> 22) m with
    | mk u ok =>
      obtain ⟨hfill, hplace⟩ := place_spec h hpos hfit h0 hback
      rw [hback] at ht
      cases ok with
      | false =>
        cases ht
        exact ⟨fun _ => ⟨hfill.conserves, fun j hj => hfill.entries j hj (by omega)⟩, nofun⟩
      | true =>
        obtain ⟨hdone, hfail⟩ := hplace rfl
        cases hcommit : commitPages (slotVa slot) (pagesOf size) 0 u with
        | mk v done =>
          rw [hcommit] at hdone hfail
          simp only [hcommit] at ht
          cases done with
          | false =>
            cases ht
            exact ⟨fun _ => hfail rfl, nofun⟩
          | true =>
            cases ht
            refine ⟨nofun, ?_⟩
            rintro va ⟨⟩
            exact ⟨slot, rfl, hpos, hfit, h0, hlow, hdone rfl⟩

/-- Freeing a block that is mapped throughout. -/
theorem nxkSysVaFree_eq (h : Backed window m) (hpos : 0 < pagesOf size)
    (hfit : slot + pagesOf size ≤ nxkSysmemPages)
    (hne : ∀ k, slot ≤ k → k < slot + pagesOf size → m.pt (0xD0000 + k) ≠ 0) :
    nxkSysVaFree m (slotVa slot) size =
        (rollBack (pagesOf size) (0xD0000 + slot) m, pagesOf size) ∧
      Emptied window m (rollBack (pagesOf size) (0xD0000 + slot) m) (0xD0000 + slot)
        (0xD0000 + slot + pagesOf size) := by
  have hat : ∀ j, 0xD0000 + slot ≤ j → j < 0xD0000 + slot + pagesOf size →
      window.Has j ∧ m.pt j ≠ 0 := by
    intro j h1 h2
    have hj := hne (j - 0xD0000) (by omega) (by omega)
    have hhas : window.Has (0xD0000 + (j - 0xD0000)) := window_has.2 (by omega)
    rw [show 0xD0000 + (j - 0xD0000) = j by omega] at hj hhas
    exact ⟨hhas, hj⟩
  refine ⟨?_, rollBack_spec h (fun j h1 h2 => (hat j h1 h2).1) (fun j h1 h2 => (hat j h1 h2).2)⟩
  have hva : slotVa slot = nxkSysmemBase + slot * 4096 := by
    unfold slotVa
    rw [Nat.shiftLeft_eq]
  have hbase : nxkSysmemBase = 0xD0000000 := rfl
  have hlimit : nxkSysmemLimit = 0xD0000000 + nxkSysmemPages * 4096 := rfl
  unfold nxkSysVaFree
  rw [if_neg (by omega), if_neg (by omega), pteIndex_slotVa]
  exact freePages_eq fun k h1 h2 => h.whole k (hat k h1 h2).1 (hat k h1 h2).2

end Calls

/-! ## Histories -/

/-- A block handed out: where it is, the size asked for, and the frames that were
mapped for it. -/
structure Block where
  slot : Nat
  size : Nat
  frames : List Nat
  deriving DecidableEq

namespace Block

def extent (b : Block) : Extent := ⟨b.slot, pagesOf b.size⟩

end Block

/-- The frames mapped at a range of the aperture. -/
def mappedFrames (m : Machine) (slot pages : Nat) : List Nat :=
  (List.range' slot pages).map fun k => frame (m.pt (0xD0000 + k))

structure System where
  mem : Machine
  live : List Block

inductive Act where
  | allocate (size : Nat)
  | free (block : Block)
  /-- The rest of the kernel uses the supply. -/
  | other (mem : Machine)

namespace Act

/-- What the callers promise: a block is freed while it is live, with its base
and its size, and others keep out of the aperture. -/
def Admissible (s : System) : Act → Prop
  | .allocate _ => True
  | .free block => block ∈ s.live
  | .other mem => Backed window mem ∧ ∀ i, window.Has i → mem.pt i = s.mem.pt i

def apply (s : System) : Act → System
  | .allocate size =>
    match nxkSysVaAllocate s.mem size with
    | (mem, none) => ⟨mem, s.live⟩
    | (mem, some va) =>
      let slot := (va - nxkSysmemBase) >>> 12
      ⟨mem, ⟨slot, size, mappedFrames mem slot (pagesOf size)⟩ :: s.live⟩
  | .free block => ⟨(nxkSysVaFree s.mem (slotVa block.slot) block.size).1, s.live.erase block⟩
  | .other mem => ⟨mem, s.live⟩

end Act

/-- Nothing is mapped in the aperture. -/
def Boot (s : System) : Prop :=
  s.live = [] ∧ Backed window s.mem ∧ ∀ i, window.Has i → s.mem.pt i = 0

def Step (s : System) (a : Act) (t : System) : Prop := a.Admissible s ∧ t = a.apply s

def History : System → Prop := Reachable Boot Step

/-- A page of the aperture is occupied. -/
def Occupied (m : Machine) (k : Nat) : Prop := k < nxkSysmemPages ∧ m.pt (0xD0000 + k) ≠ 0

theorem occupied_congr {m t : Machine} {k : Nat}
    (h : k < nxkSysmemPages → t.pt (0xD0000 + k) = m.pt (0xD0000 + k)) :
    Occupied t k ↔ Occupied m k :=
  and_congr_right fun hk => by rw [h hk]

structure System.Ok (s : System) : Prop where
  backed : Backed window s.mem
  tiles : Tiles (s.live.map Block.extent) (Occupied s.mem)
  frames : ∀ b ∈ s.live, b.frames = mappedFrames s.mem b.slot (pagesOf b.size)

theorem mappedFrames_congr {m t : Machine} {slot pages : Nat}
    (h : ∀ k, slot ≤ k → k < slot + pages → t.pt (0xD0000 + k) = m.pt (0xD0000 + k)) :
    mappedFrames t slot pages = mappedFrames m slot pages := by
  refine List.map_congr_left ?_
  intro k hk
  obtain ⟨h1, h2⟩ := List.mem_range'_1.1 hk
  rw [h k h1 h2]

namespace System.Ok

variable {s : System}

/-- A live block lies in the aperture and is mapped throughout. -/
theorem block (h : s.Ok) {b : Block} (hb : b ∈ s.live) :
    0 < pagesOf b.size ∧ b.slot + pagesOf b.size ≤ nxkSysmemPages ∧
      ∀ k, b.slot ≤ k → k < b.slot + pagesOf b.size → s.mem.pt (0xD0000 + k) ≠ 0 := by
  have hmem : b.extent ∈ s.live.map Block.extent := List.mem_map_of_mem hb
  have hpos : 0 < pagesOf b.size := h.tiles.pos _ hmem
  have hocc : ∀ k, b.slot ≤ k → k < b.slot + pagesOf b.size → Occupied s.mem k :=
    fun k h1 h2 => (h.tiles.used_iff k).2 ⟨_, hmem, h1, h2⟩
  have hlast := (hocc (b.slot + pagesOf b.size - 1) (by omega) (by omega)).1
  exact ⟨hpos, by omega, fun k h1 h2 => (hocc k h1 h2).2⟩

/-- Entries of the aperture that stay keep the invariant. -/
theorem same (h : s.Ok) {mem : Machine} (hb : Backed window mem)
    (hsame : ∀ i, window.Has i → mem.pt i = s.mem.pt i) : System.Ok ⟨mem, s.live⟩ := by
  refine ⟨hb, h.tiles.congr fun k => ?_, ?_⟩
  · exact occupied_congr fun hk => hsame _ (window_has.2 hk)
  · intro b hbl
    obtain ⟨-, hfit, -⟩ := h.block hbl
    rw [h.frames b hbl]
    refine (mappedFrames_congr ?_).symm
    intro k _ h2
    exact hsame _ (window_has.2 (by omega))

theorem allocate (h : s.Ok) (size : Nat) : ((Act.allocate size).apply s).Ok := by
  cases hcall : nxkSysVaAllocate s.mem size with
  | mk mem result =>
    rw [Act.apply, hcall]
    cases result with
    | none =>
      obtain ⟨hcons, hsame⟩ := (nxkSysVaAllocate_spec h.backed hcall).1 rfl
      exact h.same hcons.backed hsame
    | some va =>
      obtain ⟨slot, rfl, hpos, hfit, h0, -, hfill⟩ := (nxkSysVaAllocate_spec h.backed hcall).2 _ rfl
      have hslot : (slotVa slot - nxkSysmemBase) >>> 12 = slot := by
        unfold slotVa
        rw [Nat.add_sub_cancel_left, Nat.shiftLeft_shiftRight]
      simp only [hslot]
      have hkept : ∀ k, k < nxkSysmemPages → ¬(slot ≤ k ∧ k < slot + pagesOf size) →
          mem.pt (0xD0000 + k) = s.mem.pt (0xD0000 + k) := by
        intro k hk hout
        exact hfill.entries _ (window_has.2 hk) (by omega)
      refine ⟨hfill.conserves.backed, ?_, ?_⟩
      · refine h.tiles.cons hpos ?_ ?_
        · rintro k ⟨h1, h2⟩ hocc
          exact hocc.2 (h0 k h1 h2)
        intro k
        by_cases hk : slot ≤ k ∧ k < slot + pagesOf size
        · exact ⟨fun _ => .inl hk,
            fun _ => ⟨by omega, hfill.mapped _ (by omega) (by omega)⟩⟩
        · exact (occupied_congr fun hlt => hkept k hlt hk).trans (or_iff_right hk).symm
      · intro b hb
        rcases List.mem_cons.1 hb with rfl | hb
        · rfl
        · obtain ⟨-, hbfit, hbne⟩ := h.block hb
          rw [h.frames b hb]
          refine (mappedFrames_congr ?_).symm
          intro k h1 h2
          refine hkept k (by omega) ?_
          rintro ⟨h3, h4⟩
          exact hbne k h1 h2 (h0 k h3 h4)

theorem free (h : s.Ok) {b : Block} (hb : b ∈ s.live) : ((Act.free b).apply s).Ok := by
  obtain ⟨hpos, hfit, hne⟩ := h.block hb
  obtain ⟨hcall, hempty⟩ := nxkSysVaFree_eq h.backed hpos hfit hne
  have hentry : ∀ k, k < nxkSysmemPages →
      (rollBack (pagesOf b.size) (0xD0000 + b.slot) s.mem).pt (0xD0000 + k) =
        if b.slot ≤ k ∧ k < b.slot + pagesOf b.size then 0 else s.mem.pt (0xD0000 + k) := by
    intro k hk
    rw [hempty.entries _ (window_has.2 hk)]
    exact if_congr (by omega) rfl rfl
  have hperm : (s.live.map Block.extent).Perm
      (b.extent :: (s.live.erase b).map Block.extent) := by
    exact (List.perm_cons_erase hb).map Block.extent
  have htiles := h.tiles.perm hperm
  rw [Act.apply, hcall]
  refine ⟨hempty.conserves.backed, htiles.tail ?_, ?_⟩
  · intro k
    unfold Occupied
    by_cases hk : k < nxkSysmemPages
    · rw [hentry k hk]
      split_ifs with hin
      · exact ⟨fun hz => absurd rfl hz.2, fun hand => absurd hin hand.2⟩
      · exact ⟨fun hocc => ⟨hocc, hin⟩, And.left⟩
    · exact ⟨fun hocc => absurd hocc.1 hk, fun hand => absurd hand.1.1 hk⟩
  · intro c hc
    have hcl := List.mem_of_mem_erase hc
    obtain ⟨-, hcfit, -⟩ := h.block hcl
    -- blocks other than the freed one keep their entries
    have hapart : b.extent.Apart c.extent :=
      (List.pairwise_cons.1 htiles.apart).1 _ (List.mem_map_of_mem hc)
    rw [h.frames c hcl]
    refine (mappedFrames_congr ?_).symm
    intro k h1 h2
    refine (hentry k (by omega)).trans (if_neg ?_)
    intro hin
    exact hapart.not_has hin ⟨h1, h2⟩

theorem step (h : s.Ok) {a : Act} {t : System} (hst : Step s a t) : t.Ok := by
  obtain ⟨hadm, rfl⟩ := hst
  cases a with
  | allocate size => exact h.allocate size
  | free block => exact h.free hadm
  | other mem => exact h.same hadm.1 hadm.2

theorem boot (h : Boot s) : s.Ok := by
  obtain ⟨hlive, hb, hpt⟩ := h
  refine ⟨hb, ?_, by rw [hlive]; nofun⟩
  rw [hlive]
  refine .nil ?_
  rintro k ⟨hk, hne⟩
  exact hne (hpt _ (window_has.2 hk))

theorem history (h : History s) : s.Ok := by
  refine Reachable.invariant ?_ ?_ h
  · intro s hs
    exact boot hs
  · intro s a t hok hst
    exact hok.step hst

/-- The frames of a live block are in use, each mapped once. -/
theorem frames_inUse (h : s.Ok) {b : Block} (hb : b ∈ s.live) :
    b.frames.Nodup ∧ (∀ p, p ∈ b.frames → s.mem.supply.free p = false) ∧
      ∀ p, p ∈ b.frames ↔ ∃ i, window.Has i ∧ 0xD0000 + b.slot ≤ i ∧
        i < 0xD0000 + b.slot + pagesOf b.size ∧ s.mem.pt i ≠ 0 ∧ frame (s.mem.pt i) = p := by
  obtain ⟨-, hfit, hne⟩ := h.block hb
  have hat : ∀ k, b.slot ≤ k → k < b.slot + pagesOf b.size →
      window.Has (0xD0000 + k) ∧ present (s.mem.pt (0xD0000 + k)) = true := by
    intro k h1 h2
    have hhas : window.Has (0xD0000 + k) := window_has.2 (by omega)
    exact ⟨hhas, h.backed.whole _ hhas (hne k h1 h2)⟩
  rw [h.frames b hb]
  unfold mappedFrames
  refine ⟨?_, ?_, ?_⟩
  · refine List.Nodup.map_on ?_ List.nodup_range'
    intro k hk l hl he
    obtain ⟨h1, h2⟩ := List.mem_range'_1.1 hk
    obtain ⟨h3, h4⟩ := List.mem_range'_1.1 hl
    obtain ⟨hik, hpk⟩ := hat k h1 h2
    obtain ⟨hil, hpl⟩ := hat l h3 h4
    have := h.backed.inj _ _ (.inl hik) (.inl hil) hpk hpl he
    omega
  · intro p hp
    obtain ⟨k, hk, rfl⟩ := List.mem_map.1 hp
    obtain ⟨h1, h2⟩ := List.mem_range'_1.1 hk
    obtain ⟨hik, hpk⟩ := hat k h1 h2
    exact (h.backed.inUse _ (.inl hik) hpk).2.2
  · intro p
    rw [List.mem_map]
    constructor
    · rintro ⟨k, hk, rfl⟩
      obtain ⟨h1, h2⟩ := List.mem_range'_1.1 hk
      exact ⟨0xD0000 + k, (hat k h1 h2).1, by omega, by omega, hne k h1 h2, rfl⟩
    · rintro ⟨i, -, h1, h2, -, rfl⟩
      refine ⟨i - 0xD0000, List.mem_range'_1.2 ⟨by omega, by omega⟩, ?_⟩
      rw [show 0xD0000 + (i - 0xD0000) = i by omega]

end System.Ok

/-- Every state of every history of the aperture.  Live blocks are disjoint
ranges inside it.  An allocation is placed at the lowest hole of its size; one
that fails leaves every entry as it was and keeps no page except new page
tables.  Freeing a live block returns exactly the frames that were mapped when it
was allocated. -/
theorem aperture_consistent {s : System} (h : History s) :
    (s.live.map Block.extent).Pairwise Extent.Apart ∧
    (∀ b ∈ s.live, b.slot + pagesOf b.size ≤ nxkSysmemPages) ∧
    (∀ size t va, nxkSysVaAllocate s.mem size = (t, some va) →
      ∃ slot, va = slotVa slot ∧ slot + pagesOf size ≤ nxkSysmemPages ∧
        (∀ k, slot ≤ k → k < slot + pagesOf size → ¬Occupied s.mem k) ∧
        ∀ q, q < slot → ∃ k, q ≤ k ∧ k < q + pagesOf size ∧ Occupied s.mem k) ∧
    (∀ size t, nxkSysVaAllocate s.mem size = (t, none) →
      (∀ k, k < nxkSysmemPages →
        t.pt (pteIndex (slotVa k)) = s.mem.pt (pteIndex (slotVa k))) ∧
      ∀ p, (t.supply.free p = true → s.mem.supply.free p = true) ∧
        (s.mem.supply.free p = true → t.supply.free p = true ∨
          ∃ d, window.Table d ∧ present (s.mem.pt d) = false ∧
            present (t.pt d) = true ∧ frame (t.pt d) = p)) ∧
    ∀ b ∈ s.live,
      b.frames.Nodup ∧ (∀ p, p ∈ b.frames → s.mem.supply.free p = false) ∧
      (nxkSysVaFree s.mem (slotVa b.slot) b.size).2 = pagesOf b.size ∧
      ∀ p, (nxkSysVaFree s.mem (slotVa b.slot) b.size).1.supply.free p = true ↔
        s.mem.supply.free p = true ∨ p ∈ b.frames := by
  have hok := System.Ok.history h
  refine ⟨hok.tiles.apart, fun b hb => (hok.block hb).2.1, ?_, ?_, ?_⟩
  · intro size t va hcall
    obtain ⟨slot, hva, -, hfit, h0, hlow, -⟩ := (nxkSysVaAllocate_spec hok.backed hcall).2 _ rfl
    refine ⟨slot, hva, hfit, fun k h1 h2 hocc => hocc.2 (h0 k h1 h2), ?_⟩
    intro q hq
    obtain ⟨k, h1, h2, hne⟩ := hlow q hq
    exact ⟨k, h1, h2, by omega, hne⟩
  · intro size t hcall
    obtain ⟨hcons, hsame⟩ := (nxkSysVaAllocate_spec hok.backed hcall).1 rfl
    refine ⟨?_, hcons.free_of_same hok.backed hsame⟩
    intro k hk
    rw [pteIndex_slotVa]
    exact hsame _ (window_has.2 hk)
  · intro b hb
    obtain ⟨hnodup, huse, hmem⟩ := hok.frames_inUse hb
    obtain ⟨hpos, hfit, hne⟩ := hok.block hb
    obtain ⟨hcall, hempty⟩ := nxkSysVaFree_eq hok.backed hpos hfit hne
    rw [hcall]
    refine ⟨hnodup, huse, rfl, ?_⟩
    intro p
    rw [hempty.free_iff hok.backed, hmem]

/-- An aperture with nothing mapped, over a supply of three pages. -/
def emptyAperture : System :=
  ⟨⟨fun _ => 0, [Op.giveBack 0x3400, .giveBack 0x3401, .giveBack 0x3402].foldl Op.apply
    (Supply.nxkPageSupplyInitialize 0x3FFF true)⟩, []⟩

theorem emptyAperture_boot : Boot emptyAperture := by
  have hinv : Inv emptyAperture.mem.supply :=
    Inv.reached (by decide) (by decide) (Reached.ops (.start rfl) _ (by decide))
  exact ⟨rfl, .bare window hinv, fun _ _ => rfl⟩

/-- One block of two pages; its page table took frame `0x3402`. -/
def oneBlock : System := (Act.allocate 0x1800).apply emptyAperture

theorem aperture_consistent_oneBlock :
    History oneBlock ∧ oneBlock.live = [⟨0, 0x1800, [0x3401, 0x3400]⟩] ∧
      ∀ p, (nxkSysVaFree oneBlock.mem (slotVa 0) 0x1800).1.supply.free p = true ↔
        oneBlock.mem.supply.free p = true ∨ p ∈ [0x3401, 0x3400] := by
  have h : History oneBlock :=
    .next (.allocate 0x1800) (.start emptyAperture_boot) ⟨trivial, rfl⟩
  have hlive : oneBlock.live = [⟨0, 0x1800, [0x3401, 0x3400]⟩] := by decide +kernel
  obtain ⟨-, -, -, -, hfree⟩ := aperture_consistent h
  have hb : (⟨0, 0x1800, [0x3401, 0x3400]⟩ : Block) ∈ oneBlock.live := by
    exact List.mem_cons_self
  exact ⟨h, hlive, (hfree _ hb).2.2.2⟩

/-! ## What a free call touches -/

/-- An access of the walk of `NxkSysVaFree`. -/
inductive Access where
  | read (index : Nat)
  | clear (index : Nat)
  | giveBack (pfn : Nat)

def Access.apply (m : Machine) : Access → Machine
  | .read _ => m
  | .clear index => m.setEntry index 0
  | .giveBack pfn => { m with supply := m.supply.nxkPageSupplyReturn pfn }

/-- The accesses of the walk, in order.  No entry is visited twice, and the page directory
lies below all of them, so what the walk sees is what was there before it. -/
def freeAccesses (m : Machine) (n idx : Nat) : List Access :=
  (List.range' idx n).flatMap fun k =>
    .read k :: if present (m.pt k) then [.clear k, .giveBack (frame (m.pt k))] else []

def sysVaAccesses (m : Machine) (va size : Nat) : List Access :=
  if va < nxkSysmemBase ∨ nxkSysmemLimit ≤ va then []
  else freeAccesses m (pagesOf size) (pteIndex va)

/-- The page table with this entry exists. -/
def HasTable (m : Machine) (idx : Nat) : Prop :=
  idx < 2 ^ 20 ∧ present (m.pt (0xC0000 + idx / 1024)) = true

/-- An access keeps to the aperture. -/
def Access.Confined (m : Machine) : Access → Prop
  | .read idx => HasTable m idx
  | .clear idx => window.Has idx
  | .giveBack pfn => ∃ idx, window.Has idx ∧ present (m.pt idx) = true ∧ frame (m.pt idx) = pfn

/-- Every page of the range has a page table, and those outside the aperture are not mapped. -/
def RangeHeld (m : Machine) (va size : Nat) : Prop :=
  ∀ k, pteIndex va ≤ k → k < pteIndex va + pagesOf size →
    HasTable m k ∧ (present (m.pt k) = true → window.Has k)

theorem freePages_accesses (n idx : Nat) (m : Machine) :
    (freePages n idx m).1 = (freeAccesses m n idx).foldl Access.apply m := by
  induction n generalizing idx m with
  | zero => rfl
  | succ n ih =>
    have hrest : ∀ t, (∀ k, idx < k → t.pt k = m.pt k) →
        freeAccesses t n (idx + 1) = freeAccesses m n (idx + 1) := by
      intro t ht
      refine List.flatMap_congr fun k hk => ?_
      rw [ht k (List.mem_range'_1.1 hk).1]
    unfold freePages freeAccesses
    rw [List.range'_succ, List.flatMap_cons, List.foldl_append]
    split_ifs with hpresent
    · dsimp only
      rw [ih, hrest]
      · rfl
      · exact fun k hk => update_of_ne hk.ne' _ _
    · rw [ih]
      rfl

/-- The walk keeps to the aperture exactly when the whole range has page tables and no page
of it outside the aperture is mapped. -/
theorem free_confined (m : Machine) (va size : Nat) :
    (nxkSysVaFree m va size).1 = (sysVaAccesses m va size).foldl Access.apply m ∧
    ((∀ a ∈ sysVaAccesses m va size, a.Confined m) ↔
      va < nxkSysmemBase ∨ nxkSysmemLimit ≤ va ∨ RangeHeld m va size) := by
  unfold nxkSysVaFree sysVaAccesses
  by_cases hout : va < nxkSysmemBase ∨ nxkSysmemLimit ≤ va
  · rw [if_pos hout, if_pos hout, ite_self]
    exact ⟨rfl, iff_of_true nofun (by tauto)⟩
  rw [if_neg hout, if_neg hout, if_neg (by rintro rfl; exact hout (.inl (by decide)))]
  refine ⟨freePages_accesses _ _ m, ?_⟩
  rw [← or_assoc, or_iff_right hout]
  unfold RangeHeld freeAccesses
  simp only [List.mem_flatMap, List.mem_range'_1]
  constructor
  · intro h k hlo hhi
    refine ⟨h (.read k) ⟨k, ⟨hlo, hhi⟩, List.mem_cons_self⟩, fun hp => ?_⟩
    exact h (.clear k) ⟨k, ⟨hlo, hhi⟩, by simp [hp]⟩
  · rintro h a ⟨k, ⟨hlo, hhi⟩, ha⟩
    obtain ⟨htable, hhas⟩ := h k hlo hhi
    rcases List.mem_cons.1 ha with rfl | ha
    · exact htable
    · split at ha
      · next hp =>
        rcases List.mem_cons.1 ha with rfl | ha
        · exact hhas hp
        · obtain rfl := List.mem_singleton.1 ha
          exact ⟨k, hhas hp, hp, rfl⟩
      · cases ha

/-- The block of two pages is freed with a size of four megabytes and a page: the walk comes
to a page table that was never made. -/
theorem free_reads_missing_table : History oneBlock ∧
    Access.read 0xD0400 ∈ sysVaAccesses oneBlock.mem (slotVa 0) 0x401000 ∧
    ¬(Access.read 0xD0400).Confined oneBlock.mem := by
  refine ⟨.next (.allocate 0x1800) (.start emptyAperture_boot) ⟨trivial, rfl⟩, ?_, ?_⟩
  · unfold sysVaAccesses freeAccesses
    exact List.mem_flatMap.2 ⟨0xD0400, List.mem_range'_1.2 (by decide), List.mem_cons_self⟩
  · have habsent : present (oneBlock.mem.pt 0xC0341) = false := by decide +kernel
    exact fun h => Bool.false_ne_true (habsent.symm.trans h.2)

end Roswell.Ports.SysVa
