import Roswell.Verified.Blocks
import Roswell.Ports.TitleVmRuns

/-!
# XBE sections and their shared pages

Model of `XeLoadSection` and `XeUnloadSection` over the title memory manager.  A section is
loaded with its first `XeLoadSection` and dropped with its last `XeUnloadSection`; a page in
which several sections begin or end has a counter, and is decommitted when it reaches zero.

The calls run under a mutex, so each is one step.  The sections' contents are left out, as is
everything the file system answers beyond success or failure of the read.  `SectionRefCount`
is a 32-bit word, so a section may not be loaded `2 ^ 32` times; a shared-page counter is a
16-bit word, which disjoint sections cannot exceed.

## Main results

* `sections_shared`: the committed pages are those of the loaded sections, and each counter
  is the number of loaded sections that begin or end on its page.
* `failed_load_clean_iff`: a load that fails undoes nothing, so it is clean if it committed
  no page.
* `sections_overflow`: a section loaded `2 ^ 32` times counts as not loaded.
-/

namespace Roswell.Ports.XbeSections

open Verified.Word Verified.Runs Verified.Extents Verified.Blocks PageTables TitleVm Function

/-! ## The calls -/

/-- The fields of `XBE_SECTION` that are not changed. -/
structure XbeSection where
  virtualAddr : Nat
  virtualSize : Nat
  sizeOfRaw : Nat
  headSharedRefCountAddr : Nat
  tailSharedRefCountAddr : Nat
  deriving DecidableEq, Repr

/-- The memory manager, `SectionRefCount` of each section, and the shared-page counters by
address. -/
structure State (ι : Type) where
  vm : Vm
  sectionRefCount : ι → UInt32
  counters : Nat → UInt16

/-- `XepDecommitRange`. -/
def xepDecommitRange (vm : Vm) (start stop : Nat) : Vm :=
  if start < stop then
    (vm.nxVmFreeVirtualMemory (some start) (some (wsub stop start)) memDecommit true).vm
  else vm

namespace XbeSection

/-- `VirtualAddr & ~(PAGE_SIZE - 1)`. -/
def headPage (x : XbeSection) : Nat := alignDown x.virtualAddr pageSize

/-- `(VirtualAddr + VirtualSize - 1) & ~(PAGE_SIZE - 1)`. -/
def tailPage (x : XbeSection) : Nat :=
  alignDown (wsub (wadd x.virtualAddr x.virtualSize) 1) pageSize

end XbeSection

namespace State

variable {ι : Type} [DecidableEq ι]

omit [DecidableEq ι] in
def setCounter (s : State ι) (a : Nat) (v : UInt16) : State ι :=
  { s with counters := update s.counters a v }

def setRef (s : State ι) (i : ι) (v : UInt32) : State ι :=
  { s with sectionRefCount := update s.sectionRefCount i v }

/-- `XepLoadSectionData`.  The flags are the outcomes of the pool allocation a commit may
make and of the read. -/
def xepLoadSectionData (s : State ι) (x : XbeSection) (poolOk readOk : Bool) : State ι × Bool :=
  if x.virtualSize = 0 then (s, true)
  else
    let out := s.vm.nxVmAllocateVirtualMemory (some x.virtualAddr) (some x.virtualSize)
      memCommit pageExecuteReadWrite poolOk
    let s₁ := { s with vm := out.vm }
    if out.status ≠ .success then (s₁, false)
    else if x.sizeOfRaw ≠ 0 ∧ readOk = false then (s₁, false)
    else
      let s₂ := s₁.setCounter x.headSharedRefCountAddr
        (s₁.counters x.headSharedRefCountAddr + 1)
      if x.tailPage ≠ x.headPage then
        (s₂.setCounter x.tailSharedRefCountAddr (s₂.counters x.tailSharedRefCountAddr + 1), true)
      else (s₂, true)

def xeLoadSection (s : State ι) (sections : ι → XbeSection) (i : ι) (poolOk readOk : Bool) :
    State ι × Bool :=
  if s.sectionRefCount i = 0 then
    match s.xepLoadSectionData (sections i) poolOk readOk with
    | (s₁, true) => (s₁.setRef i (s₁.sectionRefCount i + 1), true)
    | (s₁, false) => (s₁, false)
  else (s.setRef i (s.sectionRefCount i + 1), true)

omit [DecidableEq ι] in
/-- Count a shared page down, and decommit it when nobody uses it any more. -/
def uncount (s : State ι) (a start : Nat) : State ι :=
  let s₁ := s.setCounter a (s.counters a - 1)
  if s₁.counters a = 0 then
    { s₁ with vm := xepDecommitRange s₁.vm start (wadd start pageSize) }
  else s₁

omit [DecidableEq ι] in
/-- The last unload of a section. -/
def drop (s : State ι) (x : XbeSection) : State ι :=
  let s₁ := s.uncount x.headSharedRefCountAddr x.headPage
  let s₂ :=
    if x.tailPage ≠ x.headPage then s₁.uncount x.tailSharedRefCountAddr x.tailPage else s₁
  { s₂ with vm := xepDecommitRange s₂.vm (wadd x.headPage pageSize) x.tailPage }

def xeUnloadSection (s : State ι) (sections : ι → XbeSection) (i : ι) : State ι × Bool :=
  if s.sectionRefCount i = 0 then (s, false)
  else
    let s₁ := s.setRef i (s.sectionRefCount i - 1)
    if s₁.sectionRefCount i = 0 ∧ (sections i).virtualSize ≠ 0 then (s₁.drop (sections i), true)
    else (s₁, true)

end State

inductive Act (ι : Type) where
  | load (i : ι) (poolOk readOk : Bool)
  | unload (i : ι)

/-! ## What the memory manager does -/

section
variable {s : Vm} {r : Region} {p e q : Nat}

theorem title_bounds (h : TitleRegion r) : 65536 ≤ r.base ∧ r.base + r.size ≤ 2147352576 :=
  ⟨h.low, h.high⟩

/-- The search for an address that a region holds finds that region. -/
theorem findRegion_of_holds (h : RegionsOk s.regions) (hr : r ∈ s.regions) {va : Nat}
    (hh : r.Holds va) :
    ∃ before after, nxvFindRegion s.regions va = some (before, r, after) := by
  cases hfind : nxvFindRegion s.regions va with
  | none => exact absurd hh (h.findRegion_none hfind r hr)
  | some found =>
    obtain ⟨before, r', after⟩ := found
    obtain ⟨hl, hlow, hhigh⟩ := h.findRegion_some hfind
    have hr' : r' ∈ s.regions := by rw [hl]; simp
    have heq : r' = r := by
      rcases List.Pairwise.forall_of_forall_of_flip
        (l := s.regions)
        (fun a _ => Or.inl rfl) (h.sorted.imp fun hb => Or.inr (Or.inl hb))
        (h.sorted.imp fun hb => Or.inr (Or.inr hb)) hr' hr with heq | hb | hb
      · exact heq
      · unfold Before at hb
        have := hh.1
        omega
      · unfold Before at hb
        have := hh.2
        omega
    rw [heq]
    exact ⟨before, after, rfl⟩

/-- A commit inside a region succeeds if the supply has the frames it needs; when it fails, the
pages that are committed are the same as before. -/
theorem commit_pages (h : VmInv s) (hr : r ∈ s.regions) {x : Extent} (hpos : 0 < x.count)
    (hlow : r.base ≤ x.start) (hhigh : x.start + x.count ≤ r.base + r.size) {poolOk : Bool}
    {out : Outcome} (hout : s.nxVmAllocateVirtualMemory (some x.start) (some x.count) memCommit
      pageExecuteReadWrite poolOk = out) :
    VmInv out.vm ∧ out.vm.regions = s.regions ∧
      (out.status = .success ↔ s.framesFor (first pageSize x) (last pageSize x + 1) ≤
        s.mem.supply.genericAvail) ∧
      ∀ q, TitlePage q → (out.vm.mem.pt q ≠ 0 ↔
        s.mem.pt q ≠ 0 ∨ out.status = .success ∧ Touches pageSize x q) := by
  have htitle := h.regions.title r hr
  have hmin := htitle.low
  have hmax := htitle.high
  have hlim := htitle.limit_eq
  obtain ⟨a, b, hab, -, ha, hlt, hb⟩ := htitle.pages
  have hbase : r.base = a * 4096 := by rw [hab]; rfl
  have hsize : r.size = (b - a) * 4096 := by rw [hab]; rfl
  have hps : ∀ n, n * pageSize = n * 4096 := fun _ => rfl
  obtain ⟨bits, hbits, hne⟩ : ∃ bits, nxvProtectToPte pageExecuteReadWrite = some bits ∧
    bits ≠ 0 := ⟨_, rfl, by decide⟩
  have hentry := nxvProtectToPte_bits hbits
  have hstart : roundDown x.start pageSize = first pageSize x * pageSize := rfl
  have hfirst : first pageSize x = x.start / 4096 := rfl
  have hlast : last pageSize x + 1 = (x.start + x.count - 1) / 4096 + 1 := rfl
  have hstop : roundUp (wadd x.start x.count) pageSize = (last pageSize x + 1) * pageSize := by
    have hmask : pageSize - 1 = 4095 := rfl
    rw [wadd_of_lt (by omega), roundUp_eq (by omega), hlast]
    show (x.start + x.count + 4095) / 4096 * pageSize = _
    congr 1
    omega
  have htouch : ∀ q, Touches pageSize x q ↔ Between (first pageSize x) (last pageSize x + 1) q :=
    fun q => ((touches_iff (by decide)).trans (and_iff_right hpos)).trans
      (and_congr_right fun _ => Nat.lt_succ_iff.symm)
  generalize first pageSize x = p at *
  generalize last pageSize x + 1 = e at *
  obtain ⟨before, after, hfind⟩ := findRegion_of_holds h.regions hr
    (show r.Holds (p * pageSize) by rw [hps]; constructor <;> omega)
  have hin : ∀ q, Between p e q → r.Holds (q * pageSize) := by
    intro q hq
    rw [Region.Holds, hps]
    omega
  rcases ht : s.nxvCommitRange (p * pageSize) (e * pageSize) bits with ⟨t, status⟩
  have hkept := h.commit hentry hr (by omega) (by omega) (by omega) hin ht
  obtain ⟨hch, -, hfull, hfits, hback⟩ := h.frames.commitRange hentry (by omega) (by omega)
    (by omega) (h.unmarked_between (by omega) (by omega)) ht
  have hcommit : out.vm = t ∧ out.status = status := by
    rw [← hout]
    unfold Vm.nxVmAllocateVirtualMemory Vm.commitAt
    dsimp only
    rw [if_neg (by omega), if_neg (by decide), hbits]
    dsimp only
    rw [if_neg (by decide), if_neg (by omega), if_neg (by omega), if_neg (by decide), hstart,
      hstop, hfind]
    dsimp only
    rw [if_neg (by rw [hlim, hps]; omega), ht]
    cases status <;> exact ⟨rfl, rfl⟩
  obtain ⟨rfl, rfl⟩ := hcommit
  refine ⟨hkept.inv, hch.regions, hfits, fun q hq => ?_⟩
  rw [htouch]
  by_cases hbt : Between p e q
  · by_cases hok : out.status = .success
    · exact iff_of_true (hfull hok q hbt) (Or.inr ⟨hok, hbt⟩)
    · rw [(hback hok).2 q hbt]
      simp only [hok, false_and, or_false]
      split_ifs with hold
      · exact iff_of_true (fun hz => hne (Nat.or_eq_zero_iff.1 hz).2) hold.1
      · rfl
  · rw [hch.other q hq hbt]
    simp only [hbt, and_false, or_false]

/-- Decommitting pages of a region. -/
theorem decommit_pages (h : VmInv s) (hr : r ∈ s.regions) (hlow : r.base ≤ p * pageSize)
    (hhigh : e * pageSize ≤ r.base + r.size) :
    VmInv (xepDecommitRange s (p * pageSize) (e * pageSize)) ∧
      (xepDecommitRange s (p * pageSize) (e * pageSize)).regions = s.regions ∧
      ∀ q, TitlePage q → ((xepDecommitRange s (p * pageSize) (e * pageSize)).mem.pt q ≠ 0 ↔
        s.mem.pt q ≠ 0 ∧ ¬Between p e q) := by
  have htitle := h.regions.title r hr
  obtain ⟨hmin, hmax⟩ := title_bounds htitle
  have hpsp : p * pageSize = p * 4096 := rfl
  have hpse : e * pageSize = e * 4096 := rfl
  have hpsd : (e - p) * pageSize = (e - p) * 4096 := rfl
  unfold xepDecommitRange
  by_cases hpe : p < e
  · rw [if_pos (page_lt.2 hpe)]
    have hholds : r.Holds (p * pageSize) := by constructor <;> omega
    have hsize : wsub (e * pageSize) (p * pageSize) = (e - p) * pageSize := by
      rw [wsub_of_le (by omega) (by omega)]
      omega
    obtain ⟨before, after, hfind⟩ := findRegion_of_holds h.regions hr hholds
    have hvm : (s.nxVmFreeVirtualMemory (some (p * pageSize))
        (some (wsub (e * pageSize) (p * pageSize))) memDecommit true).vm =
        s.nxvDecommitRange (p * pageSize) (e * pageSize) := by
      have hstart : roundDown (p * pageSize) pageSize = p * pageSize :=
        roundDown_of_dvd ⟨p, Nat.mul_comm _ _⟩
      have hstop : roundUp (wadd (p * pageSize) ((e - p) * pageSize)) pageSize = e * pageSize := by
        have hmask : pageSize - 1 = 4095 := rfl
        rw [wadd_of_lt (by omega), roundUp_eq (by omega)]
        show (p * pageSize + (e - p) * pageSize + 4095) / 4096 * pageSize = e * pageSize
        rw [show (p * pageSize + (e - p) * pageSize + 4095) / 4096 = e by omega]
      unfold Vm.nxVmFreeVirtualMemory
      dsimp only
      rw [if_neg (by decide), hfind]
      dsimp only
      rw [if_neg (by decide), hsize]
      unfold Vm.decommit
      rw [if_neg (show (e - p) * pageSize ≠ 0 by omega), hstart, hstop, htitle.limit_eq,
        if_neg (by omega)]
    rw [hvm]
    obtain ⟨hch, hzero⟩ := h.frames.decommitRange (show 0x10 ≤ p by omega)
      (show e ≤ 0x7FFE0 by omega)
    refine ⟨(h.decommitRange (by omega) (by omega)).inv, hch.regions, ?_⟩
    intro q hq
    by_cases hbt : Between p e q
    · rw [hzero q hbt]
      exact iff_of_false (fun hne => hne rfl) fun hc => hc.2 hbt
    · rw [hch.other q hq hbt]
      simp only [hbt, not_false_eq_true, and_true]
  · rw [if_neg fun hlt => hpe (page_lt.1 hlt)]
    refine ⟨h, rfl, ?_⟩
    intro q _
    have hnot : ¬Between p e q := by
      rintro ⟨h1, h2⟩
      omega
    simp only [hnot, not_false_eq_true, and_true]

end

/-! ## The layout -/

inductive End where
  | head
  | tail

namespace XbeSection

def extent (x : XbeSection) : Extent := ⟨x.virtualAddr, x.virtualSize⟩

/-- The page an end lies on. -/
def page (x : XbeSection) : End → Nat
  | .head => first pageSize x.extent
  | .tail => last pageSize x.extent

/-- The address of the counter of an end. -/
def counter (x : XbeSection) : End → Nat
  | .head => x.headSharedRefCountAddr
  | .tail => x.tailSharedRefCountAddr

end XbeSection

/-- Disjoint sections inside the image, with counters that agree with the pages: two ends
have the same counter if they lie on the same page.  `headers` are the pages committed
besides the sections. -/
structure Layout {ι : Type} (sections : ι → XbeSection) (image : Region) (headers : Nat → Prop) :
    Prop where
  inside : ∀ i, 0 < (sections i).virtualSize → image.base ≤ (sections i).virtualAddr ∧
    (sections i).virtualAddr + (sections i).virtualSize ≤ image.base + image.size
  disjoint : Disjoint fun i => (sections i).extent
  agree : ∀ i j, 0 < (sections i).virtualSize → 0 < (sections j).virtualSize → ∀ a b,
    (sections i).counter a = (sections j).counter b ↔ (sections i).page a = (sections j).page b
  headers : ∀ p, headers p → ∀ i, ¬Touches pageSize (sections i).extent p

section
variable {ι : Type} [Fintype ι] [DecidableEq ι] {sections : ι → XbeSection} {image : Region}
  {headers : Nat → Prop} {s s' : State ι} {i : ι}

omit [DecidableEq ι] in
/-- The sections with `SectionRefCount` above zero. -/
def State.loaded (s : State ι) : Finset ι := Finset.univ.filter fun i => s.sectionRefCount i ≠ 0

/-- All sections are unloaded, and no page but the headers' is committed in the image. -/
structure Start (image : Region) (headers : Nat → Prop) (s : State ι) : Prop where
  vm : VmInv s.vm
  reserved : image ∈ s.vm.regions
  committed : ∀ p, image.Holds (p * pageSize) → (s.vm.mem.pt p ≠ 0 ↔ headers p)
  sectionRefCount : ∀ i, s.sectionRefCount i = 0
  counters : ∀ a, s.counters a = 0

def State.apply (s : State ι) (sections : ι → XbeSection) : Act ι → State ι × Bool
  | .load i poolOk readOk => s.xeLoadSection sections i poolOk readOk
  | .unload i => s.xeUnloadSection sections i

/-- A call that succeeds. -/
def Step (sections : ι → XbeSection) (s : State ι) (a : Act ι) (s' : State ι) : Prop :=
  s.apply sections a = (s', true)

/-- `SectionRefCount` can count one more load. -/
def Act.Countable (s : State ι) : Act ι → Prop
  | .load i _ _ => (s.sectionRefCount i).toNat + 1 < 2 ^ 32
  | .unload _ => True

def CountableStep (sections : ι → XbeSection) (s : State ι) (a : Act ι) (s' : State ι) : Prop :=
  a.Countable s ∧ Step sections s a s'

/-- A page of the image is committed if it belongs to the headers or to a loaded section, and
each counter is the number of loaded sections that begin or end on its page. -/
structure Shared (sections : ι → XbeSection) (image : Region) (headers : Nat → Prop)
    (s : State ι) : Prop where
  committed : ∀ p, image.Holds (p * pageSize) → (s.vm.mem.pt p ≠ 0 ↔
    headers p ∨ ∃ i ∈ s.loaded, Touches pageSize (sections i).extent p)
  counter : ∀ i, 0 < (sections i).virtualSize → ∀ a,
    (s.counters ((sections i).counter a)).toNat =
      endsAt pageSize (fun j => (sections j).extent) s.loaded ((sections i).page a)

/-! ## The invariant -/

structure Inv (sections : ι → XbeSection) (image : Region) (headers : Nat → Prop)
    (s : State ι) : Prop where
  vm : VmInv s.vm
  reserved : image ∈ s.vm.regions
  shared : Shared sections image headers s

omit [DecidableEq ι] in
theorem mem_loaded : i ∈ s.loaded ↔ s.sectionRefCount i ≠ 0 := by
  unfold State.loaded
  rw [Finset.mem_filter]
  exact and_iff_right (Finset.mem_univ i)

theorem loaded_setRef_of_ne {v : UInt32} (hv : v ≠ 0) :
    (s.setRef i v).loaded = insert i s.loaded := by
  ext j
  by_cases hj : j = i <;> simp [mem_loaded, State.setRef, hj, hv]

theorem loaded_setRef_zero : (s.setRef i 0).loaded = s.loaded.erase i := by
  ext j
  by_cases hj : j = i <;> simp [mem_loaded, State.setRef, hj]

omit [Fintype ι] [DecidableEq ι] in
/-- The pages of the image are title pages. -/
theorem image_page (himage : TitleRegion image) {p : Nat} (hp : image.Holds (p * pageSize)) :
    TitlePage p := by
  obtain ⟨hlow, hhigh⟩ := title_bounds himage
  have hps : p * pageSize = p * 4096 := rfl
  obtain ⟨h1, h2⟩ := hp
  constructor <;> omega

theorem pageSize_pos : 0 < pageSize := by decide

/-- The page addresses the calls compute. -/
structure Placed (x : XbeSection) (image : Region) : Prop where
  pos : 0 < x.virtualSize
  headPage : x.headPage = first pageSize x.extent * pageSize
  tailPage : x.tailPage = last pageSize x.extent * pageSize
  next : wadd x.headPage pageSize = (first pageSize x.extent + 1) * pageSize
  afterTail : wadd x.tailPage pageSize = (last pageSize x.extent + 1) * pageSize
  low : image.base ≤ first pageSize x.extent * pageSize
  high : (last pageSize x.extent + 1) * pageSize ≤ image.base + image.size

variable {x : XbeSection} {j : ι}

theorem Placed.holds (h : Placed x image) {p : Nat}
    (hp : Touches pageSize x.extent p) : image.Holds (p * pageSize) := by
  obtain ⟨-, hlow, hhigh⟩ := (touches_iff pageSize_pos).1 hp
  have hfirst := h.low
  have hlast := h.high
  have hps : ∀ n, n * pageSize = n * 4096 := fun _ => rfl
  rw [hps] at hfirst hlast
  rw [Region.Holds, hps]
  omega

theorem placed (himage : TitleRegion image) (hpos : 0 < x.virtualSize)
    (hinside : image.base ≤ x.virtualAddr ∧
      x.virtualAddr + x.virtualSize ≤ image.base + image.size) : Placed x image := by
  obtain ⟨a, b, hab, -, ha, hlt, hb⟩ := himage.pages
  have hbase : image.base = a * 4096 := by rw [hab]; rfl
  have hsize : image.size = (b - a) * 4096 := by rw [hab]; rfl
  have hfirst : first pageSize x.extent = x.virtualAddr / 4096 := rfl
  have hlast : last pageSize x.extent = (x.virtualAddr + x.virtualSize - 1) / 4096 := rfl
  have hps : ∀ n, n * pageSize = n * 4096 := fun _ => rfl
  have hpage : pageSize = 2 ^ 12 := rfl
  have hhead : x.headPage = first pageSize x.extent * pageSize := by
    unfold XbeSection.headPage
    rw [hpage, alignDown_two_pow (by omega) (by decide)]
    rfl
  have htail : x.tailPage = last pageSize x.extent * pageSize := by
    unfold XbeSection.tailPage
    rw [wadd_of_lt (by omega), wsub_of_le (by omega) (by omega), hpage,
      alignDown_two_pow (by omega) (by decide)]
    rfl
  refine ⟨hpos, hhead, htail, ?_, ?_, ?_, ?_⟩
  · rw [hhead, hps, hps, hfirst, show pageSize = 4096 from rfl, wadd_of_lt (by omega)]
    omega
  · rw [htail, hps, hps, hlast, show pageSize = 4096 from rfl, wadd_of_lt (by omega)]
    omega
  · rw [hps, hfirst]
    omega
  · rw [hps, hlast]
    omega

theorem Placed.tailPage_eq_iff (h : Placed x image) :
    x.tailPage = x.headPage ↔ last pageSize x.extent = first pageSize x.extent := by
  rw [h.headPage, h.tailPage]
  exact Nat.mul_left_inj (by decide)

/-- The counters after a section's ends have been counted, in one step or in two. -/
def recount (x : XbeSection) (g : UInt16 → UInt16) (c : Nat → UInt16) : Nat → UInt16 :=
  let c₁ := update c x.headSharedRefCountAddr (g (c x.headSharedRefCountAddr))
  if x.tailPage ≠ x.headPage then
    update c₁ x.tailSharedRefCountAddr (g (c₁ x.tailSharedRefCountAddr))
  else c₁

omit [Fintype ι] [DecidableEq ι] in
/-- The counter of a page is counted if the section begins or ends there. -/
theorem Layout.recount_eq (h : Layout sections image headers) (himage : TitleRegion image)
    (hpos : 0 < (sections i).virtualSize) (g : UInt16 → UInt16) (c : Nat → UInt16)
    (hj : 0 < (sections j).virtualSize) (a : End) :
    recount (sections i) g c ((sections j).counter a) =
      if Ends pageSize (sections i).extent ((sections j).page a) then
        g (c ((sections j).counter a))
      else c ((sections j).counter a) := by
  have hhead : (sections j).counter a = (sections i).headSharedRefCountAddr ↔
      (sections j).page a = first pageSize (sections i).extent := h.agree j i hj hpos a .head
  have htail : (sections j).counter a = (sections i).tailSharedRefCountAddr ↔
      (sections j).page a = last pageSize (sections i).extent := h.agree j i hj hpos a .tail
  have hboth : (sections i).tailSharedRefCountAddr = (sections i).headSharedRefCountAddr ↔
      last pageSize (sections i).extent = first pageSize (sections i).extent :=
    h.agree i i hpos hpos .tail .head
  have hpages := (placed himage hpos (h.inside i hpos)).tailPage_eq_iff
  have hends : Ends pageSize (sections i).extent ((sections j).page a) ↔
      (sections j).page a = first pageSize (sections i).extent ∨
        (sections j).page a = last pageSize (sections i).extent :=
    (and_iff_right hpos).trans (or_congr eq_comm eq_comm)
  generalize (sections j).page a = p at *
  generalize first pageSize (sections i).extent = head at *
  generalize last pageSize (sections i).extent = tail at *
  unfold recount
  by_cases hsame : tail = head
  · rw [if_neg (not_not.2 (hpages.2 hsame))]
    by_cases hp : p = head
    · rw [if_pos (hends.2 (Or.inl hp)), hhead.2 hp, update_self]
    · rw [if_neg (fun he => hp ((hends.1 he).elim id fun hl => hl.trans hsame)),
        update_of_ne fun heq => hp (hhead.1 heq)]
  · rw [if_pos fun heq => hsame (hpages.1 heq)]
    by_cases hl : p = tail
    · rw [if_pos (hends.2 (Or.inr hl)), htail.2 hl, update_self,
        update_of_ne fun heq => hsame (hboth.1 heq)]
    · rw [update_of_ne fun heq => hl (htail.1 heq)]
      by_cases hp : p = head
      · rw [if_pos (hends.2 (Or.inl hp)), hhead.2 hp, update_self]
      · rw [if_neg (fun he => (hends.1 he).elim hp hl),
          update_of_ne fun heq => hp (hhead.1 heq)]

/-! ## The steps -/

/-- One more section is loaded. -/
theorem Shared.insert (h : Shared sections image headers s) (hi : i ∉ s.loaded)
    (hloaded : s'.loaded = Insert.insert i s.loaded)
    (hpages : ∀ p, image.Holds (p * pageSize) → (s'.vm.mem.pt p ≠ 0 ↔
      s.vm.mem.pt p ≠ 0 ∨ Touches pageSize (sections i).extent p))
    (hcounters : ∀ j, 0 < (sections j).virtualSize → ∀ a,
      (s'.counters ((sections j).counter a)).toNat =
        (s.counters ((sections j).counter a)).toNat +
          if Ends pageSize (sections i).extent ((sections j).page a) then 1 else 0) :
    Shared sections image headers s' where
  committed p hp := by
    rw [hpages p hp, h.committed p hp, hloaded, or_assoc]
    refine or_congr_right ?_
    simp only [Finset.mem_insert, exists_eq_or_imp]
    exact or_comm
  counter j hj a := by
    rw [hcounters j hj a, h.counter j hj a, hloaded, endsAt_insert hi]

/-- A section without bytes changes nothing but its count. -/
theorem Inv.empty (h : Inv sections image headers s) (hempty : (sections i).virtualSize = 0)
    (v : UInt32) : Inv sections image headers (s.setRef i v) := by
  have hother : ∀ j, 0 < (sections j).virtualSize →
      (j ∈ s.loaded ↔ j ∈ (s.setRef i v).loaded) := by
    intro j hj
    have hne : j ≠ i := by
      rintro rfl
      omega
    rw [mem_loaded, mem_loaded]
    dsimp only [State.setRef]
    rw [update_of_ne hne]
  refine ⟨h.vm, h.reserved, ?_, ?_⟩
  · intro p hp
    refine (h.shared.committed p hp).trans (or_congr_right (exists_congr fun j => ?_))
    exact and_congr_left fun htouch => hother j htouch.1
  · intro j hj a
    refine (h.shared.counter j hj a).trans (congrArg Finset.card (Finset.ext fun k => ?_))
    rw [Finset.mem_filter, Finset.mem_filter]
    exact and_congr_left fun hends => hother k hends.1

omit [Fintype ι] [DecidableEq ι] in
theorem endsAt_lt (h : Layout sections image headers) (L : Finset ι) (p : Nat) :
    endsAt pageSize (fun j => (sections j).extent) L p < 2 ^ 16 :=
  Nat.lt_of_le_of_lt (endsAt_le pageSize_pos h.disjoint L p) (by decide)

omit [Fintype ι] [DecidableEq ι] in
/-- The exits of the load: there is nothing to load, the commit or the read fails, or both ends
are counted. -/
theorem State.loadData_cases {poolOk : Bool} (readOk : Bool) {out : Outcome}
    (hout : s.vm.nxVmAllocateVirtualMemory (some x.virtualAddr) (some x.virtualSize) memCommit
      pageExecuteReadWrite poolOk = out) :
    x.virtualSize = 0 ∧ s.xepLoadSectionData x poolOk readOk = (s, true) ∨
      0 < x.virtualSize ∧
        (s.xepLoadSectionData x poolOk readOk = ({ s with vm := out.vm }, false) ∧
            (out.status ≠ .success ∨ out.status = .success ∧ x.sizeOfRaw ≠ 0 ∧ readOk = false) ∨
          s.xepLoadSectionData x poolOk readOk =
              (⟨out.vm, s.sectionRefCount, recount x (· + 1) s.counters⟩, true) ∧
            out.status = .success ∧ ¬(x.sizeOfRaw ≠ 0 ∧ readOk = false)) := by
  subst hout
  fun_cases State.xepLoadSectionData s x poolOk readOk with
  | case4 h _ _ _ _ _ hpage | case5 h _ _ _ _ _ hpage =>
    refine Or.inr ⟨Nat.pos_of_ne_zero h, Or.inr ⟨?_, by grind⟩⟩
    simp only [recount, hpage, if_false, if_true, ne_eq, not_false_eq_true]
    rfl
  | _ => grind

/-- The first load of a section. -/
theorem Inv.loadData (hlayout : Layout sections image headers) (h : Inv sections image headers s)
    (hi : s.sectionRefCount i = 0) {poolOk readOk : Bool} {s₁ : State ι}
    (hdata : s.xepLoadSectionData (sections i) poolOk readOk = (s₁, true)) :
    Inv sections image headers (s₁.setRef i (s₁.sectionRefCount i + 1)) := by
  have hnot : i ∉ s.loaded := fun hmem => mem_loaded.1 hmem hi
  generalize hout : s.vm.nxVmAllocateVirtualMemory (some (sections i).virtualAddr) (some
    (sections i).virtualSize) memCommit pageExecuteReadWrite poolOk = out
  rcases State.loadData_cases readOk hout with
    ⟨hempty, hload⟩ | ⟨hpos, ⟨hload, -⟩ | ⟨hload, hok, -⟩⟩
  · cases hdata.symm.trans hload
    exact h.empty hempty _
  · cases hdata.symm.trans hload
  · cases hdata.symm.trans hload
    obtain ⟨hlow, hhigh⟩ := hlayout.inside i hpos
    obtain ⟨hvm, hregions, -, hpages⟩ := commit_pages (x := (sections i).extent) h.vm
      h.reserved hpos hlow hhigh hout
    have himage := h.vm.regions.title image h.reserved
    have hone : s.sectionRefCount i + 1 ≠ 0 := by rw [hi]; decide
    have hloaded := loaded_setRef_of_ne (i := i)
      (s := ⟨out.vm, s.sectionRefCount, recount (sections i) (· + 1) s.counters⟩) hone
    have hreserved : image ∈ out.vm.regions := hregions.symm ▸ h.reserved
    refine ⟨hvm, hreserved, h.shared.insert hnot hloaded ?_ ?_⟩
    · exact fun p hp =>
        (hpages p (image_page himage hp)).trans (or_congr_right (and_iff_right hok))
    intro j hj a
    dsimp only [State.setRef]
    have hcounter := h.shared.counter j hj a
    have hlt := endsAt_lt hlayout (Insert.insert i s.loaded) ((sections j).page a)
    rw [endsAt_insert hnot, ← hcounter] at hlt
    rw [hlayout.recount_eq himage hpos _ _ hj a]
    split
    · next hends =>
      rw [if_pos hends] at hlt
      exact ushort_add_one hlt
    · rfl

/-- What a call that fails has to leave: the pages committed in the image and all counts. -/
structure Clean (image : Region) (s s' : State ι) : Prop where
  committed : ∀ p, image.Holds (p * pageSize) → (s'.vm.mem.pt p ≠ 0 ↔ s.vm.mem.pt p ≠ 0)
  counters : s'.counters = s.counters
  sectionRefCount : s'.sectionRefCount = s.sectionRefCount

omit [Fintype ι] in
/-- When the read fails, the commit is not undone: the call is clean only if it committed no
page, because there are too few frames or because all pages of the section are committed. -/
theorem failed_load_clean_iff (hvm : VmInv s.vm) (himage : image ∈ s.vm.regions)
    (hinside : image.base ≤ (sections i).virtualAddr ∧
      (sections i).virtualAddr + (sections i).virtualSize ≤ image.base + image.size)
    (poolOk readOk : Bool) :
    ((s.xeLoadSection sections i poolOk readOk).2 = false →
        Clean image s (s.xeLoadSection sections i poolOk readOk).1) ↔
      (s.sectionRefCount i = 0 → 0 < (sections i).virtualSize → (sections i).sizeOfRaw ≠ 0 →
        readOk = false →
        s.vm.framesFor (first pageSize (sections i).extent) (last pageSize (sections i).extent + 1) ≤
          s.vm.mem.supply.genericAvail →
        ∀ p, Touches pageSize (sections i).extent p → s.vm.mem.pt p ≠ 0) := by
  have htitle := hvm.regions.title image himage
  unfold State.xeLoadSection
  split_ifs with hi
  · generalize hout : s.vm.nxVmAllocateVirtualMemory (some (sections i).virtualAddr) (some
      (sections i).virtualSize) memCommit pageExecuteReadWrite poolOk = out
    rcases State.loadData_cases readOk hout with
      ⟨hempty, hload⟩ | ⟨hpos, ⟨hload, hwhy⟩ | ⟨hload, -, hread⟩⟩
    · rw [hload]
      exact iff_of_true nofun fun _ hpos => by omega
    · obtain ⟨-, -, hfits, hpages⟩ := commit_pages (x := (sections i).extent) hvm himage hpos
        hinside.1 hinside.2 hout
      rw [hload]
      rcases hwhy with hfail | ⟨hok, hread⟩
      · refine iff_of_true (fun _ => ⟨fun p hp => ?_, rfl, rfl⟩) fun _ _ _ _ hfit => ?_
        · exact (hpages p (image_page htitle hp)).trans (or_iff_left fun hc => hfail hc.1)
        · exact absurd (hfits.2 hfit) hfail
      · constructor
        · intro hclean _ _ _ _ _ p htouch
          have hp : image.Holds (p * pageSize) := (placed htitle hpos hinside).holds htouch
          exact ((hclean rfl).committed p hp).1
            ((hpages p (image_page htitle hp)).2 (Or.inr ⟨hok, htouch⟩))
        · intro hall _
          refine ⟨fun p hp => (hpages p (image_page htitle hp)).trans (or_iff_left_of_imp ?_),
            rfl, rfl⟩
          exact fun htouch => hall hi hpos hread.1 hread.2 (hfits.1 hok) p htouch.2
    · rw [hload]
      exact iff_of_true nofun fun _ _ hraw hfail => absurd ⟨hraw, hfail⟩ hread
  · exact iff_of_true nofun fun hzero => absurd hzero hi

/-- A load that only counts. -/
theorem Inv.count (h : Inv sections image headers s) {v : UInt32}
    (hi : s.sectionRefCount i ≠ 0) (hv : v ≠ 0) : Inv sections image headers (s.setRef i v) := by
  have hloaded : (s.setRef i v).loaded = s.loaded := by
    rw [loaded_setRef_of_ne hv]
    exact Finset.insert_eq_of_mem (mem_loaded.2 hi)
  refine ⟨h.vm, h.reserved, ?_, ?_⟩
  · rw [hloaded]
    exact h.shared.committed
  · rw [hloaded]
    exact h.shared.counter

omit [Fintype ι] [DecidableEq ι] in
theorem uncount_pages {p a : Nat} (h : VmInv s.vm) (himage : image ∈ s.vm.regions)
    (hlow : image.base ≤ p * pageSize) (hhigh : (p + 1) * pageSize ≤ image.base + image.size)
    (hnext : wadd (p * pageSize) pageSize = (p + 1) * pageSize)
    (hs : s.uncount a (p * pageSize) = s') :
    s'.counters = update s.counters a (s.counters a - 1) ∧
      s'.sectionRefCount = s.sectionRefCount ∧ VmInv s'.vm ∧ image ∈ s'.vm.regions ∧
      ∀ q, TitlePage q →
        (s'.vm.mem.pt q ≠ 0 ↔ s.vm.mem.pt q ≠ 0 ∧ ¬(s.counters a - 1 = 0 ∧ q = p)) := by
  have hbetween : ∀ q, Between p (p + 1) q ↔ q = p := by
    intro q
    omega
  have hzero : (s.setCounter a (s.counters a - 1)).counters a = s.counters a - 1 :=
    update_self ..
  subst hs
  unfold State.uncount
  dsimp only
  rw [hzero]
  split_ifs with hz
  · rw [hnext]
    obtain ⟨hinv, hregions, hpages⟩ := decommit_pages h himage hlow hhigh
    refine ⟨rfl, rfl, hinv, hregions.symm ▸ himage, ?_⟩
    intro q hq
    have hq' := hpages q hq
    rw [hbetween] at hq'
    exact hq'.trans (and_congr_right fun _ => not_congr (and_iff_right hz).symm)
  · refine ⟨rfl, rfl, h, himage, ?_⟩
    intro q _
    exact (and_iff_left fun hc => hz hc.1).symm

omit [Fintype ι] [DecidableEq ι] in
/-- The last unload: the counters, and the pages left. -/
theorem drop_pages (h : VmInv s.vm) (himage : image ∈ s.vm.regions)
    (hplaced : Placed x image)
    (hboth : x.tailSharedRefCountAddr = x.headSharedRefCountAddr ↔
      last pageSize x.extent = first pageSize x.extent) (hs : s.drop x = s') :
    s'.counters = recount x (· - 1) s.counters ∧ s'.sectionRefCount = s.sectionRefCount ∧
      VmInv s'.vm ∧ image ∈ s'.vm.regions ∧
      ∀ q, TitlePage q → (s'.vm.mem.pt q ≠ 0 ↔ s.vm.mem.pt q ≠ 0 ∧
        ¬(s.counters x.headSharedRefCountAddr - 1 = 0 ∧ q = first pageSize x.extent) ∧
        ¬(s.counters x.tailSharedRefCountAddr - 1 = 0 ∧ q = last pageSize x.extent) ∧
        ¬(first pageSize x.extent < q ∧ q < last pageSize x.extent)) := by
  have hpages := hplaced.tailPage_eq_iff
  have hle : first pageSize x.extent ≤ last pageSize x.extent := first_le_last pageSize hplaced.pos
  obtain ⟨-, hhead, htail, hnext, hafter, hlow, hhigh⟩ := hplaced
  have hmono : ∀ {m n : Nat}, m ≤ n → m * pageSize ≤ n * pageSize :=
    (Nat.mul_le_mul_right pageSize)
  rw [hhead] at hnext
  rw [htail] at hafter
  generalize first pageSize x.extent = head at *
  generalize last pageSize x.extent = tail at *
  generalize hs₁ : s.uncount x.headSharedRefCountAddr (head * pageSize) = s₁
  obtain ⟨hc₁, hrefs₁, hvm₁, himage₁, hpages₁⟩ := uncount_pages h himage hlow
    ((hmono (Nat.succ_le_succ hle)).trans hhigh) hnext hs₁
  unfold State.drop at hs
  dsimp only at hs
  unfold recount
  by_cases hsame : tail = head
  · -- one page
    have hone := hpages.2 hsame
    rw [if_neg (not_not.2 hone), hhead, htail, hs₁, hnext] at hs
    have hnone : xepDecommitRange s₁.vm ((head + 1) * pageSize) (tail * pageSize) = s₁.vm := by
      refine if_neg ?_
      rw [page_lt]
      omega
    rw [hnone] at hs
    subst hs
    rw [if_neg (not_not.2 hone), hboth.2 hsame, hsame]
    refine ⟨hc₁, hrefs₁, hvm₁, himage₁, ?_⟩
    intro q hq
    refine (hpages₁ q hq).trans (and_congr_right fun _ => ?_)
    have hempty : ¬(head < q ∧ q < head) := by omega
    rw [and_iff_left hempty]
    exact (and_self_iff).symm
  · -- two pages, and those between them
    have htwo := fun heq => hsame (hpages.1 heq)
    rw [if_pos htwo, hhead, htail, hs₁, hnext] at hs
    have hother : s₁.counters x.tailSharedRefCountAddr = s.counters x.tailSharedRefCountAddr := by
      rw [hc₁, update_of_ne fun heq => hsame (hboth.1 heq)]
    generalize hs₂ : s₁.uncount x.tailSharedRefCountAddr (tail * pageSize) = s₂
    obtain ⟨hc₂, hrefs₂, hvm₂, himage₂, hpages₂⟩ := uncount_pages hvm₁ himage₁
      (hlow.trans (hmono hle)) hhigh hafter hs₂
    rw [hs₂] at hs
    obtain ⟨hvm₃, hregions₃, hpages₃⟩ := decommit_pages (e := tail) hvm₂ himage₂
      (hlow.trans (hmono (Nat.le_succ _))) ((hmono (Nat.le_succ _)).trans hhigh)
    subst hs
    refine ⟨?_, hrefs₂.trans hrefs₁, hvm₃, hregions₃.symm ▸ himage₂, ?_⟩
    · rw [if_pos htwo]
      rw [hc₂, hc₁]
    · intro q hq
      have hq₃ := hpages₃ q hq
      rw [hpages₂ q hq, hpages₁ q hq, hother, and_assoc, and_assoc] at hq₃
      exact hq₃

/-- A counter of the section that goes, counted down. -/
theorem Shared.uncounted (h : Shared sections image headers s) (hi : i ∈ s.loaded)
    (hj : 0 < (sections j).virtualSize) {a : End}
    (hends : Ends pageSize (sections i).extent ((sections j).page a)) :
    (s.counters ((sections j).counter a) - 1).toNat =
      endsAt pageSize (fun j => (sections j).extent) (s.loaded.erase i) ((sections j).page a) := by
  have hcounter := h.counter j hj a
  rw [endsAt_erase hi, if_pos hends] at hcounter
  rw [ushort_sub_one (by omega)]
  omega

/-- The counters after the last unload. -/
theorem Shared.recount (hlayout : Layout sections image headers) (himage : TitleRegion image)
    (h : Shared sections image headers s) (hi : i ∈ s.loaded)
    (hpos : 0 < (sections i).virtualSize) (hj : 0 < (sections j).virtualSize) (a : End) :
    (XbeSections.recount (sections i) (· - 1) s.counters ((sections j).counter a)).toNat =
      endsAt pageSize (fun j => (sections j).extent) (s.loaded.erase i) ((sections j).page a) := by
  rw [hlayout.recount_eq himage hpos _ _ hj a]
  split
  · next hends => exact h.uncounted hi hj hends
  · next hends =>
    have hcounter := h.counter j hj a
    rw [endsAt_erase hi, if_neg hends] at hcounter
    exact hcounter

theorem XbeSection.ends_page (hpos : 0 < x.virtualSize) (a : End) :
    Ends pageSize x.extent (x.page a) := by
  refine ⟨hpos, ?_⟩
  cases a with
  | head => exact Or.inl rfl
  | tail => exact Or.inr rfl

omit [Fintype ι] in
/-- The pages left after the last unload are those of the other sections. -/
theorem pages_left (hlayout : Layout sections image headers) {L : Finset ι} (hi : i ∈ L)
    (hpos : 0 < (sections i).virtualSize) {c : Nat → UInt16}
    (hcounter : ∀ a, (c ((sections i).counter a)).toNat =
      endsAt pageSize (fun j => (sections j).extent) (L.erase i) ((sections i).page a)) (q : Nat) :
    (headers q ∨ ∃ j ∈ L, Touches pageSize (sections j).extent q) ∧
        ¬(c ((sections i).counter .head) = 0 ∧ q = first pageSize (sections i).extent) ∧
        ¬(c ((sections i).counter .tail) = 0 ∧ q = last pageSize (sections i).extent) ∧
        ¬(first pageSize (sections i).extent < q ∧ q < last pageSize (sections i).extent) ↔
      headers q ∨ ∃ j ∈ L.erase i, Touches pageSize (sections j).extent q := by
  have htouch : Touches pageSize (sections i).extent q ↔
      first pageSize (sections i).extent ≤ q ∧ q ≤ last pageSize (sections i).extent :=
    (touches_iff pageSize_pos).trans (and_iff_right hpos)
  have hnot : i ∉ L.erase i := Finset.notMem_erase i L
  -- a counter that is not zero names another section
  have hused : ∀ a, c ((sections i).counter a) ≠ 0 → q = (sections i).page a →
      ∃ j ∈ L.erase i, Touches pageSize (sections j).extent q := by
    intro a hc hq
    rw [Ne, ushort_eq_zero, hcounter a, ← hq] at hc
    obtain ⟨j, hj⟩ := Finset.card_pos.1 (Nat.pos_of_ne_zero hc)
    obtain ⟨hmem, hends⟩ := Finset.mem_filter.1 hj
    exact ⟨j, hmem, hends.touches pageSize_pos⟩
  constructor
  · rintro ⟨hheaders | ⟨j, hj, hjq⟩, hhead, htail, hmid⟩
    · exact Or.inl hheaders
    right
    by_cases hji : j = i
    · subst hji
      obtain ⟨h1, h2⟩ := htouch.1 hjq
      by_cases hq : q = first pageSize (sections j).extent
      · exact hused .head (fun hc => hhead ⟨hc, hq⟩) hq
      · by_cases hq' : q = last pageSize (sections j).extent
        · exact hused .tail (fun hc => htail ⟨hc, hq'⟩) hq'
        · exact absurd ⟨by omega, by omega⟩ hmid
    · exact ⟨j, Finset.mem_erase.2 ⟨hji, hj⟩, hjq⟩
  · intro hleft
    -- no page of the section that has lost its last user is touched
    have hfree : Touches pageSize (sections i).extent q →
        (∀ j ∈ L.erase i, ¬Touches pageSize (sections j).extent q) → False := by
      intro hiq hnone
      rcases hleft with hheaders | ⟨j, hj, hjq⟩
      · exact hlayout.headers q hheaders i hiq
      · exact hnone j hj hjq
    have hends : ∀ a, ¬(c ((sections i).counter a) = 0 ∧ q = (sections i).page a) := by
      rintro a ⟨hc, hq⟩
      rw [ushort_eq_zero, hcounter a, ← hq] at hc
      have hiq : Touches pageSize (sections i).extent q :=
        hq ▸ (XbeSection.ends_page hpos a).touches pageSize_pos
      exact hfree hiq (untouched_of_endsAt pageSize_pos hlayout.disjoint hnot hiq hc)
    refine ⟨?_, hends .head, hends .tail, ?_⟩
    · rcases hleft with hheaders | ⟨j, hj, hjq⟩
      · exact Or.inl hheaders
      · exact Or.inr ⟨j, (Finset.mem_erase.1 hj).2, hjq⟩
    · rintro ⟨h1, h2⟩
      have hiq : Touches pageSize (sections i).extent q := htouch.2 ⟨h1.le, h2.le⟩
      refine hfree hiq (untouched_of_not_ends pageSize_pos hlayout.disjoint hnot hiq ?_)
      rintro ⟨-, hq | hq⟩
      · exact absurd hq h1.ne
      · exact absurd hq.symm h2.ne

/-- The last unload of a section. -/
theorem Inv.unloadLast (hlayout : Layout sections image headers)
    (h : Inv sections image headers s) (hi : i ∈ s.loaded)
    (hpos : 0 < (sections i).virtualSize) :
    Inv sections image headers ((s.setRef i 0).drop (sections i)) := by
  have himage := h.vm.regions.title image h.reserved
  obtain ⟨hcounters, hrefs, hvm, hreserved, hpages⟩ :=
    drop_pages (s := s.setRef i 0) h.vm h.reserved (placed himage hpos (hlayout.inside i hpos))
      (hlayout.agree i i hpos hpos .tail .head) rfl
  have hloaded : ((s.setRef i 0).drop (sections i)).loaded = s.loaded.erase i := by
    rw [← loaded_setRef_zero]
    unfold State.loaded
    rw [hrefs]
  refine ⟨hvm, hreserved, ?_, ?_⟩
  · intro p hp
    rw [hpages p (image_page himage hp), hloaded]
    refine (and_congr_left' (h.shared.committed p hp)).trans
      (pages_left (c := fun a => s.counters a - 1) hlayout hi hpos ?_ p)
    exact fun a => h.shared.uncounted hi hpos (XbeSection.ends_page hpos a)
  · intro j hj a
    rw [hcounters, hloaded]
    exact h.shared.recount hlayout himage hi hpos hj a

theorem Inv.step (hlayout : Layout sections image headers) (h : Inv sections image headers s)
    {a : Act ι} (hstep : CountableStep sections s a s') : Inv sections image headers s' := by
  obtain ⟨hcountable, hstep⟩ := hstep
  cases a with
  | load i poolOk readOk =>
    change s.xeLoadSection sections i poolOk readOk = (s', true) at hstep
    revert hstep
    fun_cases State.xeLoadSection s sections i poolOk readOk with
    | case1 hi s₁ hdata =>
      rintro ⟨⟩
      exact h.loadData hlayout hi hdata
    | case2 => nofun
    | case3 hi =>
      rintro ⟨⟩
      refine h.count hi ?_
      rw [Ne, ulong_eq_zero, ulong_add_one hcountable]
      exact Nat.succ_ne_zero _
  | unload i =>
    change s.xeUnloadSection sections i = (s', true) at hstep
    unfold State.xeUnloadSection at hstep
    have hself : (s.setRef i (s.sectionRefCount i - 1)).sectionRefCount i =
        s.sectionRefCount i - 1 := update_self ..
    simp only [hself] at hstep
    split_ifs at hstep with hi hlast
    · cases hstep
    · cases hstep
      rw [hlast.1]
      exact h.unloadLast hlayout (mem_loaded.2 hi) (Nat.pos_of_ne_zero hlast.2)
    · cases hstep
      by_cases hsize : (sections i).virtualSize = 0
      · exact h.empty hsize _
      · exact h.count hi fun hzero => hlast ⟨hzero, hsize⟩

omit [DecidableEq ι] in
theorem Start.inv (h : Start image headers s) : Inv sections image headers s := by
  have hnone : s.loaded = ∅ := by
    ext i
    rw [mem_loaded]
    exact iff_of_false (fun hne => hne (h.sectionRefCount i)) (Finset.notMem_empty i)
  refine ⟨h.vm, h.reserved, ?_, ?_⟩
  · intro p hp
    rw [h.committed p hp, hnone]
    simp
  · intro i _ a
    rw [h.counters, hnone]
    rfl

/-- In every run of successful calls, in which no section is loaded beyond what its count can
hold, the committed pages of the image are those of the headers and of the loaded sections,
and each shared-page counter counts the loaded sections that begin or end on its page. -/
theorem sections_shared (hlayout : Layout sections image headers)
    (hrun : Reachable (Start image headers) (CountableStep sections) s) :
    Shared sections image headers s := by
  have hinv : Inv sections image headers s := by
    refine Reachable.invariant ?_ ?_ hrun
    · exact fun u hu => hu.inv
    · exact fun u a v hu hstep => hu.step hlayout hstep
  exact hinv.shared

end

/-! ## Two sections on one page -/

/-- The image of one page, reserved in the small machine. -/
def smallImage : Region := ⟨0x20000, 0x1000, pageExecuteReadWrite⟩

def reserve : Call := .allocate (some 0x20000) (some 0x1000) memReserve pageExecuteReadWrite true

theorem reserve_inRange : reserve.InRange := by
  intro base size hb hs
  cases hb
  cases hs
  decide

/-- Two sections that share the page. -/
def smallSections : Bool → XbeSection
  | false => ⟨0x20000, 0x10, 0x10, 0x100, 0x100⟩
  | true => ⟨0x20800, 0x20, 0, 0x100, 0x100⟩

theorem smallSections_layout : Layout smallSections smallImage fun _ => False where
  inside := by decide
  disjoint := by
    intro i j hij _ _
    revert i j
    unfold Extent.Apart
    decide
  agree i j _ _ a b := by
    cases i <;> cases j <;> cases a <;> cases b <;> exact iff_of_true rfl rfl
  headers _ h := h.elim

def unloaded : State Bool := ⟨reserve.apply smallVm, fun _ => 0, fun _ => 0⟩

theorem unloaded_start : Start smallImage (fun _ => False) unloaded where
  vm := (smallVm_boot.inv.call reserve_inRange.confined).inv
  reserved := by decide
  committed p hp := by
    have hempty : unloaded.vm.mem.pt p = 0 := rfl
    exact iff_of_false (fun hne => hne rfl) id
  sectionRefCount _ := rfl
  counters _ := rfl

theorem step_of_ok {s : State Bool} {a : Act Bool} (h : (s.apply smallSections a).2 = true) :
    Step smallSections s a (s.apply smallSections a).1 := Prod.ext rfl h

/-- A section of a page that nobody has loaded is committed, and its read fails. -/
theorem failed_load_keeps_page :
    (unloaded.xeLoadSection smallSections false true false).2 = false ∧
      unloaded.vm.mem.pt 0x20 = 0 ∧
      (unloaded.xeLoadSection smallSections false true false).1.vm.mem.pt 0x20 ≠ 0 := by
  decide +kernel

/-- The section without raw data is loaded. -/
def neighbourLoaded : State Bool := (unloaded.apply smallSections (.load true true true)).1

/-- The page is committed already when the read of the other section fails. -/
theorem failed_load_clean_iff_neighbour :
    (neighbourLoaded.xeLoadSection smallSections false true false).2 = false ∧
      Clean smallImage neighbourLoaded
        (neighbourLoaded.xeLoadSection smallSections false true false).1 := by
  have hinv : Inv smallSections smallImage (fun _ => False) neighbourLoaded :=
    unloaded_start.inv.step smallSections_layout (a := .load true true true)
      ⟨show 0 + 1 < 2 ^ 32 by decide, step_of_ok (by decide +kernel)⟩
  have hfails : (neighbourLoaded.xeLoadSection smallSections false true false).2 = false := by
    decide +kernel
  refine ⟨hfails, (failed_load_clean_iff hinv.vm hinv.reserved (by decide) true false).2 ?_ hfails⟩
  intro _ _ _ _ _ p hp
  obtain ⟨-, hlow, hhigh⟩ := (touches_iff pageSize_pos).1 hp
  have hpage : p = 0x20 := Nat.le_antisymm hhigh hlow
  rw [hpage]
  decide +kernel

def firstLoad : State Bool := (unloaded.apply smallSections (.load false true true)).1

theorem sections_shared_two :
    Shared smallSections smallImage (fun _ => False)
      ((firstLoad.apply smallSections (.load true true true)).1.apply smallSections
        (.unload false)).1 := by
  refine sections_shared smallSections_layout ?_
  have hfirst : Reachable (Start smallImage fun _ => False) (CountableStep smallSections)
      firstLoad :=
    .next (.load false true true) (.start unloaded_start)
      ⟨show 0 + 1 < 2 ^ 32 by decide, step_of_ok (by decide +kernel)⟩
  have hroom : (Act.load true true true).Countable firstLoad := show 0 + 1 < 2 ^ 32 by decide
  exact .next (.unload false) (.next (.load true true true) hfirst
    ⟨hroom, step_of_ok (by decide +kernel)⟩) ⟨trivial, step_of_ok (by decide +kernel)⟩

/-! ## Too many loads -/

/-- One section has been loaded so many times. -/
def loadedTimes (n : Nat) : State Bool := firstLoad.setRef false (UInt32.ofNat n)

theorem loadedTimes_one : loadedTimes 1 = firstLoad := by
  unfold loadedTimes State.setRef
  rw [show update firstLoad.sectionRefCount false (UInt32.ofNat 1) =
    firstLoad.sectionRefCount from update_eq_self_iff.2 rfl]

/-- A load of a section that is loaded counts. -/
theorem loadedTimes_succ {n : Nat} (hn : UInt32.ofNat n ≠ 0) :
    Step smallSections (loadedTimes n) (.load false true true) (loadedTimes (n + 1)) := by
  have hrefs : (loadedTimes n).sectionRefCount false = UInt32.ofNat n := rfl
  show (loadedTimes n).xeLoadSection smallSections false true true = _
  unfold State.xeLoadSection
  rw [hrefs, if_neg hn, show UInt32.ofNat n + 1 = UInt32.ofNat (n + 1) from
    (UInt32.ofNat_add n 1).symm]
  unfold loadedTimes State.setRef
  rw [update_idem]

theorem loadedTimes_reachable {n : Nat} (hn : n < 2 ^ 32) :
    Reachable (Start smallImage fun _ => False) (Step smallSections) (loadedTimes (n + 1)) := by
  induction n with
  | zero =>
    rw [loadedTimes_one]
    exact .next (.load false true true) (.start unloaded_start) (step_of_ok (by decide +kernel))
  | succ n ih =>
    refine .next (.load false true true) (ih (by omega)) (loadedTimes_succ ?_)
    rw [Ne, ulong_eq_zero, UInt32.toNat_ofNat', Nat.mod_eq_of_lt hn]
    exact Nat.succ_ne_zero n

/-- After `2 ^ 32` loads the section's page is committed and no section counts as loaded. -/
theorem sections_overflow : ∃ s : State Bool,
    Reachable (Start smallImage fun _ => False) (Step smallSections) s ∧ s.loaded = ∅ ∧
      s.vm.mem.pt 0x20 ≠ 0 ∧ ¬Shared smallSections smallImage (fun _ => False) s := by
  have hloaded : (loadedTimes (2 ^ 32)).loaded = ∅ := by
    ext i
    rw [mem_loaded]
    refine iff_of_false ?_ (Finset.notMem_empty i)
    rw [not_not]
    cases i with
    | false => exact show UInt32.ofNat (2 ^ 32) = 0 by decide
    | true => rfl
  have hpage : (loadedTimes (2 ^ 32)).vm.mem.pt 0x20 ≠ 0 :=
    show firstLoad.vm.mem.pt 0x20 ≠ 0 by decide +kernel
  refine ⟨loadedTimes (2 ^ 32), loadedTimes_reachable (by decide), hloaded,
    hpage, ?_⟩
  intro hshared
  have hcommitted := (hshared.committed 0x20 ⟨by decide, by decide⟩).1 hpage
  rcases hcommitted with hheaders | ⟨i, hi, -⟩
  · exact hheaders
  · exact absurd hi (Finset.notMem_empty i)

end Roswell.Ports.XbeSections
