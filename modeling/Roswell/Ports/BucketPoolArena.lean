import Roswell.Ports.BucketPool

/-!
# Blocks, free lists and page states of the bucket pool

`Arena` ties the parts of the state together: the free lists are linked through
memory, each block of a carved page is listed in the list of its class or held,
and not both, the state of a page counts its held blocks, and each run of the page
layer is a carved page or owned.  Held blocks and owned runs are parameters, given
up to their order; who holds them is not this file's concern.

The sections under the lock move one block between its list and the holders, or one
page between the carved pages and the owners.
-/

namespace Roswell.Ports.BucketPool

open Verified.Bytes Verified.SingleLink Verified.Extents
open PageTables (pageSize)
open PoolPages (nxppBase nxppPages bytesToPages pageVa)

/-! ## Classes -/

theorem classSize_bounds {cls : Nat} (h : cls < nxpClasses) :
    32 ≤ classSize cls ∧ classSize cls ≤ 2048 ∧ 2 ≤ pageSize / classSize cls ∧
      pageSize / classSize cls ≤ 128 := by
  have hall : ∀ c < nxpClasses, 32 ≤ classSize c ∧ classSize c ≤ 2048 ∧
      2 ≤ pageSize / classSize c ∧ pageSize / classSize c ≤ 128 := by
    decide
  exact hall cls h

/-- The map gives a class that is large enough. -/
theorem nxpClassMap_fits {u : Nat} (hu : u ≤ 128) :
    nxpClassMap u < nxpClasses ∧ u * 16 ≤ classSize (nxpClassMap u) := by
  have hall : ∀ v ≤ 128, nxpClassMap v < nxpClasses ∧ v * 16 ≤ classSize (nxpClassMap v) := by
    decide +kernel
  exact hall u hu

theorem classOf_fits {bytes : Nat} (h : bytes ≤ nxpSmallMax) :
    classOf bytes < nxpClasses ∧ bytes + headerSize ≤ classSize (classOf bytes) := by
  unfold nxpSmallMax at h
  obtain ⟨blockBytes, hblock⟩ : ∃ n, (if bytes ≠ 0 then bytes else 1) + headerSize = n := ⟨_, rfl⟩
  have hbounds : bytes + 8 ≤ blockBytes ∧ blockBytes ≤ 2048 := by
    unfold headerSize at hblock
    split at hblock <;> omega
  have hshift : (blockBytes + 15) >>> 4 = (blockBytes + 15) / 16 := Nat.shiftRight_eq_div_pow _ 4
  have hfits := nxpClassMap_fits (u := (blockBytes + 15) / 16) (by omega)
  unfold classOf
  dsimp only
  rw [hblock, hshift]
  unfold headerSize
  omega

/-! ## Blocks of a page -/

/-- The address of block `j` of a page. -/
def slotVa (idx cls j : Nat) : Nat := nxppBase + idx * pageSize + j * classSize cls + headerSize

def slots (idx cls : Nat) : List Nat :=
  (List.range (pageSize / classSize cls)).map (slotVa idx cls)

section Slots

variable {idx cls e : Nat}

theorem mem_slots : e ∈ slots idx cls ↔ ∃ j < pageSize / classSize cls, e = slotVa idx cls j := by
  unfold slots
  rw [List.mem_map]
  constructor
  · rintro ⟨j, hj, rfl⟩
    exact ⟨j, List.mem_range.1 hj, rfl⟩
  · rintro ⟨j, hj, rfl⟩
    exact ⟨j, List.mem_range.2 hj, rfl⟩

theorem length_slots (idx cls : Nat) : (slots idx cls).length = pageSize / classSize cls := by
  unfold slots
  rw [List.length_map, List.length_range]

/-- A block with its header lies in its page. -/
theorem slot_in_page (h : e ∈ slots idx cls) :
    nxppBase + idx * pageSize + headerSize ≤ e ∧
      e + classSize cls ≤ nxppBase + (idx + 1) * pageSize + headerSize := by
  obtain ⟨j, hj, rfl⟩ := mem_slots.1 h
  have hle : (j + 1) * classSize cls ≤ pageSize :=
    (Nat.mul_le_mul_right _ hj).trans (Nat.div_mul_le_self _ _)
  unfold slotVa
  rw [Nat.add_mul, Nat.one_mul] at hle
  rw [Nat.add_mul, Nat.one_mul]
  omega

theorem inPage_of_mem_slots (hcls : cls < nxpClasses) (h : e ∈ slots idx cls) : InPage idx e := by
  have hsize := classSize_bounds hcls
  have hin := slot_in_page h
  unfold InPage
  unfold headerSize at hin
  omega

theorem nxpPageIndex_of_inPage (h : InPage idx e) : nxpPageIndex e = idx := by
  unfold InPage pageSize at h
  unfold nxpPageIndex
  rw [Nat.shiftRight_eq_div_pow]
  omega

theorem inPage_unique {idx' : Nat} (h : InPage idx e) (h' : InPage idx' e) : idx = idx' :=
  (nxpPageIndex_of_inPage h).symm.trans (nxpPageIndex_of_inPage h')

/-- Two blocks of a page are a block size apart. -/
theorem slots_apart {e' : Nat} (h : e ∈ slots idx cls) (h' : e' ∈ slots idx cls) (hne : e ≠ e') :
    e + classSize cls ≤ e' ∨ e' + classSize cls ≤ e := by
  obtain ⟨i, -, rfl⟩ := mem_slots.1 h
  obtain ⟨j, -, rfl⟩ := mem_slots.1 h'
  unfold slotVa at hne ⊢
  rcases Nat.lt_trichotomy i j with hij | rfl | hji
  · have hle := Nat.mul_le_mul_right (classSize cls) hij
    rw [Nat.succ_mul] at hle
    omega
  · exact absurd rfl hne
  · have hle := Nat.mul_le_mul_right (classSize cls) hji
    rw [Nat.succ_mul] at hle
    omega

theorem slots_nodup (hcls : cls < nxpClasses) (idx : Nat) : (slots idx cls).Nodup := by
  have hsize := classSize_bounds hcls
  refine List.Nodup.map ?_ List.nodup_range
  intro i j hij
  unfold slotVa at hij
  exact Nat.eq_of_mul_eq_mul_right (by omega) (show i * classSize cls = j * classSize cls by omega)

theorem slot_not_aligned (hcls : cls < nxpClasses) (h : e ∈ slots idx cls) : e % pageSize ≠ 0 := by
  obtain ⟨j, hj, rfl⟩ := mem_slots.1 h
  have hall : ∀ c < nxpClasses, ∀ i < pageSize / classSize c,
      (i * classSize c + headerSize) % pageSize ≠ 0 := by
    decide +kernel
  have hslot := hall cls hcls j hj
  unfold slotVa nxppBase
  unfold pageSize at hslot ⊢
  omega

end Slots

/-! ## The invariant -/

/-- The link of a free block. -/
def next (m : Memory) (e : Nat) : Nat := load m e 4

/-- The class in the header of a block. -/
def classField (m : Memory) (e : Nat) : Nat := load m (e - 4) 2

/-- How often a run is a carved page: once or not at all. -/
def Core.bucketRuns (k : Core) (r : Extent) : Nat :=
  if r.count = 1 ∧ k.Bucket r.start then 1 else 0

structure Arena (k : Core) (lists : Nat → List Nat) (held : List Nat) (owned : List Extent) :
    Prop where
  window : k.window.Ok
  runs : ∀ r, k.window.live.count r = owned.count r + k.bucketRuns r
  marked : ∀ {idx}, k.Bucket idx → k.pageClass idx < nxpClasses
  linked : ∀ {cls}, cls < nxpClasses → Linked (next k.mem) (k.freeLists cls) (lists cls)
  placed : ∀ {cls e}, cls < nxpClasses → e ∈ lists cls →
    ∃ idx, InPage idx e ∧ k.Bucket idx ∧ k.pageClass idx = cls
  holds : ∀ {e}, e ∈ held → ∃ idx, InPage idx e ∧ k.Bucket idx
  split : ∀ {idx e}, k.Bucket idx → InPage idx e →
    (lists (k.pageClass idx)).count e + held.count e = (slots idx (k.pageClass idx)).count e
  count : ∀ {idx}, k.Bucket idx → k.pageState idx = held.countP fun e => InPage idx e
  header : ∀ {cls e}, cls < nxpClasses → e ∈ lists cls → classField k.mem e = cls

/-- Neither the class nor the header of a held block changes. -/
def Frame (k k' : Core) (held : List Nat) : Prop :=
  ∀ e ∈ held, k'.pageClass (nxpPageIndex e) = k.pageClass (nxpPageIndex e) ∧
    Keeps k.mem k'.mem (e - 8) 8

variable {k k' : Core} {lists : Nat → List Nat} {held held' : List Nat} {owned owned' : List Extent}
  {idx cls e : Nat}

/-- The address is a block of a carved page. -/
def Core.IsSlot (k : Core) (e : Nat) : Prop :=
  ∃ idx, k.Bucket idx ∧ k.pageClass idx < nxpClasses ∧ e ∈ slots idx (k.pageClass idx)

/-- Bytes of the block at an address. -/
def Core.sizeAt (k : Core) (e : Nat) : Nat := classSize (k.pageClass (nxpPageIndex e))

theorem Core.IsSlot.page (h : k.IsSlot e) :
    k.Bucket (nxpPageIndex e) ∧ k.pageClass (nxpPageIndex e) < nxpClasses ∧
      InPage (nxpPageIndex e) e ∧ e ∈ slots (nxpPageIndex e) (k.pageClass (nxpPageIndex e)) := by
  obtain ⟨idx, hbucket, hcls, hmem⟩ := h
  have hpage := inPage_of_mem_slots hcls hmem
  rw [nxpPageIndex_of_inPage hpage]
  exact ⟨hbucket, hcls, hpage, hmem⟩

theorem Core.IsSlot.size (h : k.IsSlot e) : 32 ≤ k.sizeAt e ∧ k.sizeAt e ≤ 2048 := by
  have hbounds := classSize_bounds h.page.2.1
  exact ⟨hbounds.1, hbounds.2.1⟩

theorem Core.IsSlot.ge (h : k.IsSlot e) : 0xC1000008 ≤ e := by
  have hin := slot_in_page h.page.2.2.2
  unfold nxppBase headerSize at hin
  omega

/-- Different blocks, with their headers, have no byte in common. -/
theorem Core.IsSlot.apart {e' : Nat} (h : k.IsSlot e) (h' : k.IsSlot e') (hne : e ≠ e') :
    e + k.sizeAt e ≤ e' ∨ e' + k.sizeAt e' ≤ e := by
  obtain ⟨-, -, -, hmem⟩ := h.page
  obtain ⟨-, -, -, hmem'⟩ := h'.page
  unfold Core.sizeAt
  by_cases hidx : nxpPageIndex e = nxpPageIndex e'
  · rw [hidx] at hmem ⊢
    exact slots_apart hmem hmem' hne
  · have hin := slot_in_page hmem
    have hin' := slot_in_page hmem'
    unfold pageSize at hin hin'
    omega

namespace Arena

theorem held_perm (h : Arena k lists held owned) (hp : held.Perm held') :
    Arena k lists held' owned where
  window := h.window
  runs := h.runs
  marked := h.marked
  linked := h.linked
  placed := h.placed
  holds := fun he => h.holds (hp.mem_iff.2 he)
  split := fun hb he => hp.count_eq _ ▸ h.split hb he
  count := fun hb => hp.countP_eq _ ▸ h.count hb
  header := h.header

theorem owned_perm (h : Arena k lists held owned) (hp : owned.Perm owned') :
    Arena k lists held owned' where
  window := h.window
  runs := fun r => hp.count_eq r ▸ h.runs r
  marked := h.marked
  linked := h.linked
  placed := h.placed
  holds := h.holds
  split := h.split
  count := h.count
  header := h.header

theorem count_slots_le (h : Arena k lists held owned) (hb : k.Bucket idx) (e : Nat) :
    (slots idx (k.pageClass idx)).count e ≤ 1 :=
  List.nodup_iff_count_le_one.1 (slots_nodup (h.marked hb) idx) e

/-- A listed block is a block of a page of that class, listed once and not held. -/
theorem listed (h : Arena k lists held owned) (hcls : cls < nxpClasses) (he : e ∈ lists cls) :
    k.IsSlot e ∧ k.pageClass (nxpPageIndex e) = cls ∧ (lists cls).count e = 1 ∧ e ∉ held := by
  obtain ⟨idx, hpage, hb, rfl⟩ := h.placed hcls he
  have hsplit := h.split hb hpage
  have hle := h.count_slots_le hb e
  have hpos := List.count_pos_iff.2 he
  have hmem : e ∈ slots idx (k.pageClass idx) := List.count_pos_iff.1 (by omega)
  refine ⟨⟨idx, hb, hcls, hmem⟩, by rw [nxpPageIndex_of_inPage hpage], by omega, ?_⟩
  intro hheld
  have := List.count_pos_iff.2 hheld
  omega

/-- A held block is a block of a carved page, held once and not listed. -/
theorem held_slot (h : Arena k lists held owned) (he : e ∈ held) :
    k.IsSlot e ∧ held.count e = 1 ∧ ∀ cls < nxpClasses, e ∉ lists cls := by
  obtain ⟨idx, hpage, hb⟩ := h.holds he
  have hsplit := h.split hb hpage
  have hle := h.count_slots_le hb e
  have hpos := List.count_pos_iff.2 he
  have hmem : e ∈ slots idx (k.pageClass idx) := List.count_pos_iff.1 (by omega)
  refine ⟨⟨idx, hb, h.marked hb, hmem⟩, by omega, ?_⟩
  intro cls hcls hlisted
  exact (h.listed hcls hlisted).2.2.2 he

/-- The number of held blocks of a page is at most that of its blocks. -/
theorem count_le (h : Arena k lists held owned) (hb : k.Bucket idx)
    (hle : ∀ e, InPage idx e → held'.count e ≤ (slots idx (k.pageClass idx)).count e) :
    (held'.countP fun e => InPage idx e) ≤ 128 := by
  have hbounds := classSize_bounds (h.marked hb)
  have hlength : (held'.countP fun e => InPage idx e) ≤ pageSize / classSize (k.pageClass idx) := by
    rw [List.countP_eq_length_filter, ← length_slots idx]
    refine List.Subperm.length_le (List.subperm_ext_iff.2 ?_)
    intro e he
    obtain ⟨-, hpage⟩ := List.mem_filter.1 he
    rw [List.count_filter (p := fun e => decide (InPage idx e)) hpage]
    exact hle e (of_decide_eq_true hpage)
  omega

theorem state_le (h : Arena k lists held owned) (hb : k.Bucket idx) : k.pageState idx ≤ 128 := by
  rw [h.count hb]
  refine h.count_le hb fun e he => ?_
  have hsplit := h.split hb he
  omega

/-- A carved page is a run of the page layer that nobody owns. -/
theorem bucket_run (h : Arena k lists held owned) (hb : k.Bucket idx) :
    (⟨idx, 1⟩ : Extent) ∈ k.window.live ∧ (⟨idx, 1⟩ : Extent) ∉ owned := by
  have hruns := h.runs ⟨idx, 1⟩
  have honce := List.nodup_iff_count_le_one.1 h.window.tiles.nodup ⟨idx, 1⟩
  rw [show k.bucketRuns ⟨idx, 1⟩ = 1 from if_pos ⟨rfl, hb⟩] at hruns
  refine ⟨List.count_pos_iff.1 (by omega), ?_⟩
  intro hmem
  have := List.count_pos_iff.2 hmem
  omega

theorem slot_lt (h : Arena k lists held owned) (he : k.IsSlot e) : e < 2 ^ 32 := by
  obtain ⟨hb, -, hpage, -⟩ := he.page
  have hin := h.window.inside _ (h.bucket_run hb).1
  unfold InPage nxppBase pageSize at hpage
  unfold nxppPages at hin
  dsimp only at hin
  omega

theorem owned_live (h : Arena k lists held owned) {r : Extent} (hr : r ∈ owned) :
    r ∈ k.window.live := by
  have hruns := h.runs r
  have := List.count_pos_iff.2 hr
  exact List.count_pos_iff.1 (by omega)

/-- A listed block whose class and link are kept. -/
theorem kept (h : Arena k lists held owned) (hcls : cls < nxpClasses) (he : e ∈ lists cls)
    {m : Memory} (hkeep : Keeps k.mem m (e - 4) 8) :
    next m e = next k.mem e ∧ classField m e = cls := by
  have hge := (h.listed hcls he).1.ge
  refine ⟨load_congr (hkeep.mono (by omega) (by omega)), Eq.trans (load_congr ?_) (h.header hcls he)⟩
  exact hkeep.mono (Nat.le_refl _) (by omega)

/-- The bytes of listed blocks from their class on are kept, and nothing else matters. -/
theorem of_mem (h : Arena k lists held owned) {m : Memory}
    (hkeep : ∀ cls < nxpClasses, ∀ e ∈ lists cls, Keeps k.mem m (e - 4) 8) :
    Arena { k with mem := m } lists held owned where
  window := h.window
  runs := h.runs
  marked := h.marked
  linked := fun hcls => (h.linked hcls).congr fun e he => (h.kept hcls he (hkeep _ hcls e he)).1
  placed := h.placed
  holds := h.holds
  split := h.split
  count := h.count
  header := fun hcls he => (h.kept hcls he (hkeep _ hcls _ he)).2

/-! ## The page layer -/

theorem allocPages (h : Arena k lists held owned) (bytes : Nat) (hbytes : bytesToPages bytes ≠ 0) :
    ∃ k' va, k.allocPages bytes = (k', va) ∧ k'.mem = k.mem ∧ k'.pageClass = k.pageClass ∧
      ((va = none ∧ Arena k' lists held owned) ∨
        ∃ start, va = some (pageVa start 0) ∧
          Arena k' lists held (⟨start, bytesToPages bytes⟩ :: owned)) := by
  have hok := h.window.alloc hbytes
  refine ⟨_, _, rfl, rfl, rfl, ?_⟩
  rcases h.window.alloc_live bytes with ⟨hnone, hlive⟩ | ⟨start, hsome, hlive⟩
  · refine Or.inl ⟨hnone, { h with window := hok, runs := ?_ }⟩
    intro r
    show List.count r ((PoolPages.Act.alloc bytes).apply k.window).live = _ + k.bucketRuns r
    rw [hlive]
    exact h.runs r
  · refine Or.inr ⟨start, hsome, { h with window := hok, runs := ?_ }⟩
    intro r
    have hruns := h.runs r
    show List.count r ((PoolPages.Act.alloc bytes).apply k.window).live = _ + k.bucketRuns r
    rw [hlive, List.count_cons, List.count_cons]
    omega

theorem freePages {r : Extent} (h : Arena k lists held (r :: owned)) :
    Arena (k.freePages r) lists held owned := by
  have hlive := h.owned_live (r := r) List.mem_cons_self
  refine { h with window := h.window.free hlive, runs := ?_ }
  intro q
  have hruns := h.runs q
  show (k.window.live.erase r).count q = _ + k.bucketRuns q
  rw [List.count_erase]
  rw [List.count_cons] at hruns
  omega

end Arena

end Roswell.Ports.BucketPool
