import Roswell.Ports.PageSupplyRuns
import Roswell.Ports.TitleVmFrames
import Roswell.Verified.Moves

/-!
# What a relocating run allocation does to memory

The page tables lie in the frames that are moved.  `Ram` is physical memory as frames of words,
with the page directory's frame; an owner entry is reached through the self map, that is through
whatever the directory says at that moment.  `NxkPageSupplyTakeRunRelocate` copies each owned page
of the run through the KSEG0 window and then rewrites its owner entry; translations the TLB holds
are flushed with each move, so they are those of the tables.

A moved page's words are read where the page is now (`home`), and are those it had before, except
that the owner entries of moved pages hold the new frames (`after`).  This holds whether a page
table is moved before or after the pages whose entries it holds.

## Main results

* `relocation_preserves`: the contents seen through owned entries, the ownership relation, the run
  that is returned and the frames elsewhere, after a successful call.
* `relocation_writes_tables`: the frame of a page table outside the window changes.
-/

namespace Roswell.Ports.RelocateMemory

open Verified.Moves Verified.Word PageSupply PageTables TitleVm Function

/-- The page-size bit of a directory entry. -/
def large (entry : Nat) : Bool := entry &&& 0x080 != 0

/-- Physical memory, the frame of the page directory, and the frame seen through the KSEG0 window
at the address of a page. -/
structure Ram where
  phys : Nat → Nat → Nat
  dir : Nat
  kseg0 : Nat → Nat

namespace Ram

def pde (r : Ram) (i : Nat) : Nat := r.phys r.dir i

/-- The frame of the page table an entry lies in. -/
def table (r : Ram) (e : Nat) : Nat := frame (r.pde (e / 1024))

/-- The word at `0xC0000000 + 4 * e`. -/
def pte (r : Ram) (e : Nat) : Nat := r.phys (r.table e) (e % 1024)

def setPte (r : Ram) (e entry : Nat) : Ram :=
  { r with
    phys := update r.phys (r.table e)
      (update (r.phys (r.table e)) (e % 1024) entry) }

/-- `rep movsl` from window address to window address. -/
def copyPage (r : Ram) (page dest : Nat) : Ram :=
  { r with phys := update r.phys (r.kseg0 dest) (r.phys (r.kseg0 page)) }

/-- One move of `NxkPageSupplyTakeRunRelocate`. -/
def relocate (r : Ram) (m : Supply.Move) : Ram :=
  (r.copyPage m.page m.dest).setPte m.owner (mkEntry m.dest (r.pte m.owner &&& 0xFFF))

def relocateAll (r : Ram) (moves : List Supply.Move) : Ram := moves.foldl relocate r

/-- There is a page table with the entry in it. -/
def Walks (r : Ram) (e : Nat) : Prop :=
  e < 2 ^ 20 ∧ present (r.pde (e / 1024)) = true ∧ large (r.pde (e / 1024)) = false

/-- The entry maps a page; a directory entry is one as long as it is not a large page. -/
def Refers (r : Ram) (e : Nat) : Prop := r.Walks e ∧ (e / 1024 = 0x300 → large (r.pte e) = false)

end Ram

/-- The page is in use and has the owner entry `e`. -/
def Owned (s : Supply) (p e : Nat) : Prop := OwnedBy s p e ∧ e ≠ 0

/-- The state before the call: all managed pages lie below 64 MB, where the window shows each at
its own address; every owned page is the frame of its owner entry and of no other; no entry maps a
free page; and the page directory maps itself and is not owned. -/
structure Layout (r : Ram) (s : Supply) : Prop where
  supply : Inv s
  low : s.highestPfn < nxkKseg0RamPages
  kseg0 : ∀ p < nxkKseg0RamPages, r.kseg0 p = p
  selfMap : present (r.pde 0x300) = true ∧ large (r.pde 0x300) = false ∧ frame (r.pde 0x300) = r.dir
  owned : ∀ {p e}, Owned s p e → r.Refers e ∧ frame (r.pte e) = p
  only : ∀ {p e e'}, Owned s p e → r.Refers e' → frame (r.pte e') = p → e' = e
  free : ∀ {e}, r.Refers e → s.free (frame (r.pte e)) = false
  dir : ∀ {e}, ¬Owned s r.dir e

/-- The moves of a call: owned pages, each once, to different free pages. -/
structure Plan (s : Supply) (moves : List Supply.Move) : Prop where
  owned : ∀ m ∈ moves, Owned s m.page m.owner
  free : ∀ m ∈ moves, s.free m.dest = true
  pages : (moves.map Supply.Move.page).Nodup
  dests : (moves.map Supply.Move.dest).Nodup

/-- Where the page that was in frame `q` is after the moves. -/
def homeOf (moves : List Supply.Move) (q : Nat) : Nat :=
  home (moves.map fun m => (m.page, m.dest)) q

/-- The move whose owner entry is the word `w` of frame `q`. -/
def mover (r : Ram) (moves : List Supply.Move) (q w : Nat) : Option Supply.Move :=
  moves.find? fun m => r.table m.owner == q && m.owner % 1024 == w

/-- The word `w` of the page that was in frame `q`, after the moves. -/
def after (r : Ram) (moves : List Supply.Move) (q w : Nat) : Nat :=
  match mover r moves q w with
  | some m => mkEntry m.dest (r.phys q w &&& 0xFFF)
  | none => r.phys q w

section
variable {r : Ram} {s : Supply} {moves : List Supply.Move} {m : Supply.Move} {p q w e : Nat}

theorem Owned.page_inj {e' : Nat} (h : Owned s p e) (h' : Owned s p e') : e = e' :=
  h.1.owner.symm.trans h'.1.owner

theorem Owned.not_free (h : Owned s p e) : s.free p = false := h.1.inUse

theorem mover_mem (h : mover r moves q w = some m) :
    m ∈ moves ∧ r.table m.owner = q ∧ m.owner % 1024 = w := by
  have hp := List.find?_some h
  simp only [Bool.and_eq_true, beq_iff_eq] at hp
  exact ⟨List.mem_of_find?_eq_some h, hp⟩

theorem mover_none (h : mover r moves q w = none) (hm : m ∈ moves) (hq : r.table m.owner = q) :
    m.owner % 1024 ≠ w := by
  have hp := List.find?_eq_none.1 h m hm
  simpa [hq] using hp

namespace Plan

theorem init (h : Plan s (moves ++ [m])) : Plan s moves := by
  refine ⟨fun a ha => h.owned a (List.mem_append_left _ ha),
    fun a ha => h.free a (List.mem_append_left _ ha), ?_, ?_⟩
  · have hpages := h.pages
    rw [List.map_append] at hpages
    exact hpages.of_append_left
  · have hdests := h.dests
    rw [List.map_append] at hdests
    exact hdests.of_append_left

theorem homeOf_page (h : Plan s moves) (hm : m ∈ moves) : homeOf moves m.page = m.dest := by
  refine home_of_mem (List.mem_map.2 ⟨m, hm, rfl⟩) ?_
  rw [List.map_map]
  exact h.pages

theorem homeOf_other (hq : ∀ m ∈ moves, m.page ≠ q) : homeOf moves q = q := by
  refine home_of_not_mem ?_
  rw [List.map_map]
  intro hmem
  obtain ⟨m, hm, hpage⟩ := List.mem_map.1 hmem
  exact hq m hm hpage

theorem homeOf_cases (h : Plan s moves) (q : Nat) :
    ((∀ m ∈ moves, m.page ≠ q) ∧ homeOf moves q = q) ∨
      ∃ m ∈ moves, m.page = q ∧ homeOf moves q = m.dest := by
  by_cases hmem : ∃ m ∈ moves, m.page = q
  · obtain ⟨m, hm, rfl⟩ := hmem
    exact Or.inr ⟨m, hm, rfl, h.homeOf_page hm⟩
  · have hnot : ∀ m ∈ moves, m.page ≠ q := fun m hm hpage => hmem ⟨m, hm, hpage⟩
    exact Or.inl ⟨hnot, homeOf_other hnot⟩

/-- A frame that is not free is no destination. -/
theorem not_dest (h : Plan s moves) (hq : s.free q = false) : ∀ m ∈ moves, m.dest ≠ q := by
  rintro m hm rfl
  rw [h.free m hm] at hq
  cases hq

theorem homeOf_inj (h : Plan s moves) {q' : Nat} (hq : ∀ m ∈ moves, m.dest ≠ q)
    (hq' : ∀ m ∈ moves, m.dest ≠ q') (heq : homeOf moves q = homeOf moves q') : q = q' := by
  have hto : ∀ {a : Nat}, (∀ m ∈ moves, m.dest ≠ a) →
      a ∉ (moves.map fun m => (m.page, m.dest)).map Prod.snd := by
    intro a ha hmem
    rw [List.map_map] at hmem
    obtain ⟨m, hm, hdest⟩ := List.mem_map.1 hmem
    exact ha m hm hdest
  refine home_inj ?_ ?_ (hto hq) (hto hq') heq
  · rw [List.map_map]
    exact h.pages
  · rw [List.map_map]
    exact h.dests

end Plan

namespace Layout

variable (h : Layout r s)
include h

/-- The directory entry above an entry is itself an entry, in the directory. -/
theorem directory (hw : r.Walks e) : r.Refers (0xC0000 + e / 1024) ∧
    r.pte (0xC0000 + e / 1024) = r.pde (e / 1024) ∧ r.table (0xC0000 + e / 1024) = r.dir ∧
    (0xC0000 + e / 1024) % 1024 = e / 1024 := by
  have hlt := hw.1
  have hspan : (0xC0000 + e / 1024) / 1024 = 0x300 := by omega
  have hslot : (0xC0000 + e / 1024) % 1024 = e / 1024 := by omega
  have htable : r.table (0xC0000 + e / 1024) = r.dir := by
    unfold Ram.table
    rw [hspan]
    exact h.selfMap.2.2
  have hpte : r.pte (0xC0000 + e / 1024) = r.pde (e / 1024) := by
    unfold Ram.pte
    rw [htable, hslot]
    rfl
  refine ⟨⟨⟨by omega, ?_, ?_⟩, fun _ => ?_⟩, hpte, htable, hslot⟩
  · rw [hspan]
    exact h.selfMap.1
  · rw [hspan]
    exact h.selfMap.2.1
  · rw [hpte]
    exact hw.2.2

/-- A page table is not free. -/
theorem table_not_free (hw : r.Walks e) : s.free (r.table e) = false := by
  obtain ⟨hrefers, hpte, -⟩ := h.directory hw
  have hfree := h.free hrefers
  rwa [hpte] at hfree

/-- A page table that is owned is owned by its directory entry. -/
theorem table_owner {e' : Nat} (hw : r.Walks e) (ho : Owned s (r.table e) e') :
    e' = 0xC0000 + e / 1024 := by
  obtain ⟨hrefers, hpte, -⟩ := h.directory hw
  refine (h.only ho hrefers ?_).symm
  rw [hpte]
  rfl

theorem dir_not_free : s.free r.dir = false := by
  have hw : r.Walks 0xC0000 := ⟨by decide, h.selfMap.1, h.selfMap.2.1⟩
  have htable : r.table 0xC0000 = r.dir := h.selfMap.2.2
  have hfree := h.table_not_free hw
  rwa [htable] at hfree

/-- No page holds its own owner entry. -/
theorem table_ne_page (ho : Owned s p e) : r.table e ≠ p := by
  rintro rfl
  obtain ⟨hrefers, -⟩ := h.owned ho
  have howner := h.table_owner hrefers.1 ho
  have hself : e / 1024 = 0x300 := by omega
  have hdir : r.table e = r.dir := by
    unfold Ram.table
    rw [hself]
    exact h.selfMap.2.2
  rw [hdir] at ho
  exact h.dir ho

/-- Two moved pages do not have their owner entries in one word. -/
theorem entry_inj (hplan : Plan s moves) {m m' : Supply.Move} (hm : m ∈ moves) (hm' : m' ∈ moves)
    (htable : r.table m.owner = r.table m'.owner) (hslot : m.owner % 1024 = m'.owner % 1024) :
    m = m' := by
  have hpte : r.pte m.owner = r.pte m'.owner := by
    unfold Ram.pte
    rw [htable, hslot]
  have hpage : m.page = m'.page := by
    rw [← (h.owned (hplan.owned m hm)).2, ← (h.owned (hplan.owned m' hm')).2, hpte]
  exact List.inj_on_of_nodup_map hplan.pages hm hm' hpage

end Layout

/-! ## One move after the others -/

theorem mover_snoc : mover r (moves ++ [m]) q w = (mover r moves q w).or
    (if r.table m.owner = q ∧ m.owner % 1024 = w then some m else none) := by
  unfold mover
  rw [List.find?_append, List.find?_singleton]
  simp only [Bool.and_eq_true, beq_iff_eq]

theorem after_snoc_other (hne : ¬(r.table m.owner = q ∧ m.owner % 1024 = w)) :
    after r (moves ++ [m]) q w = after r moves q w := by
  unfold after
  rw [mover_snoc, if_neg hne, Option.or_none]

theorem after_snoc_self (hnone : mover r moves (r.table m.owner) (m.owner % 1024) = none) :
    after r (moves ++ [m]) (r.table m.owner) (m.owner % 1024) =
      mkEntry m.dest (r.pte m.owner &&& 0xFFF) := by
  unfold after
  rw [mover_snoc, hnone, if_pos ⟨rfl, rfl⟩]
  rfl

theorem Plan.homeOf_snoc (h : Plan s (moves ++ [m])) (hq : q ≠ m.page) :
    homeOf (moves ++ [m]) q = homeOf moves q := by
  rcases h.init.homeOf_cases q with ⟨hnot, hsame⟩ | ⟨m', hm', rfl, hdest⟩
  · rw [hsame]
    refine Plan.homeOf_other fun a ha => ?_
    rcases List.mem_append.1 ha with ha | ha
    · exact hnot a ha
    · rw [List.mem_singleton.1 ha]
      exact hq.symm
  · rw [hdest]
    exact h.homeOf_page (List.mem_append_left _ hm')

/-- The last move is none of the earlier ones, in page or destination. -/
theorem Plan.last_fresh (h : Plan s (moves ++ [m])) :
    ∀ m' ∈ moves, m'.page ≠ m.page ∧ m'.dest ≠ m.dest := by
  intro m' hm'
  have hpages := h.pages
  have hdests := h.dests
  rw [List.map_append, List.nodup_append] at hpages hdests
  exact ⟨hpages.2.2 _ (List.mem_map_of_mem hm') _ (List.mem_singleton.2 rfl),
    hdests.2.2 _ (List.mem_map_of_mem hm') _ (List.mem_singleton.2 rfl)⟩

/-- The effect of the moves: every page that was in no destination is found at its home, with
the owner entries of the moved pages retargeted. -/
structure Moved (r r' : Ram) (moves : List Supply.Move) : Prop where
  dir : r'.dir = r.dir
  kseg0 : r'.kseg0 = r.kseg0
  contents : ∀ q, (∀ m ∈ moves, m.dest ≠ q) → ∀ w, r'.phys (homeOf moves q) w = after r moves q w

namespace Moved

variable {r' : Ram} (h : Layout r s) (hplan : Plan s moves) (hmoved : Moved r r' moves)
include h hplan hmoved

/-- The directory stays where it is. -/
theorem pde_eq (i : Nat) : r'.pde i = after r moves r.dir i := by
  have hstay : homeOf moves r.dir = r.dir := Plan.homeOf_other fun m hm hpage =>
    h.dir (hpage ▸ hplan.owned m hm)
  have hcontents := hmoved.contents r.dir (hplan.not_dest h.dir_not_free) i
  rw [hstay] at hcontents
  unfold Ram.pde
  rw [hmoved.dir, hcontents]

/-- The walk to an entry ends in its page table, wherever that is by now. -/
theorem table_eq (hw : r.Walks e) : r'.table e = homeOf moves (r.table e) := by
  obtain ⟨-, hpte, htable, hslot⟩ := h.directory hw
  have hpde := hmoved.pde_eq h hplan (e / 1024)
  unfold after at hpde
  unfold Ram.table at *
  cases hm : mover r moves r.dir (e / 1024) with
  | some m =>
    obtain ⟨hmem, hin, hat⟩ := mover_mem hm
    rw [hm] at hpde
    have hpage : frame (r.pde (e / 1024)) = m.page := by
      rw [← (h.owned (hplan.owned m hmem)).2]
      unfold Ram.pte
      rw [hin, hat]
      rfl
    rw [hpde, hpage, hplan.homeOf_page hmem, frame_mkEntry _ (Nat.and_lt_two_pow _ (by decide))]
  | none =>
    rw [hm] at hpde
    rw [hpde]
    refine (Plan.homeOf_other fun m hmem hpage => ?_).symm
    -- an owned table is owned by its directory entry, which would have been retargeted
    have ho := hplan.owned m hmem
    rw [hpage] at ho
    have howner := h.table_owner hw ho
    refine mover_none hm hmem ?_ ?_
    · rw [howner]
      exact htable
    · rw [howner]
      exact hslot

theorem pte_eq (hw : r.Walks e) : r'.pte e = after r moves (r.table e) (e % 1024) := by
  unfold Ram.pte
  rw [hmoved.table_eq h hplan hw]
  exact hmoved.contents _ (hplan.not_dest (h.table_not_free hw)) _

end Moved

theorem Moved.nil (r : Ram) : Moved r r [] := ⟨rfl, rfl, fun _ _ _ => rfl⟩

theorem Moved.snoc {r' : Ram} (h : Layout r s) (hplan : Plan s (moves ++ [m]))
    (hmoved : Moved r r' moves) : Moved r (r'.relocate m) (moves ++ [m]) := by
  have hlast : m ∈ moves ++ [m] := List.mem_append_right _ (List.mem_singleton.2 rfl)
  have howned := hplan.owned m hlast
  have hfree := hplan.free m hlast
  have hfresh := hplan.last_fresh
  have hwalks := (h.owned howned).1.1
  have hlow : m.page < nxkKseg0RamPages ∧ m.dest < nxkKseg0RamPages := by
    have := h.low
    have := howned.1.le
    have := h.supply.free_le hfree
    omega
  have hnone : mover r moves (r.table m.owner) (m.owner % 1024) = none := by
    cases hm : mover r moves (r.table m.owner) (m.owner % 1024) with
    | none => rfl
    | some m' =>
      obtain ⟨hmem, hin, hat⟩ := mover_mem hm
      have hsame := h.entry_inj hplan (List.mem_append_left _ hmem) hlast hin hat
      exact absurd (congrArg Supply.Move.page hsame) (hfresh m' hmem).1
  -- the entry is still the original one, in the table's present frame
  have hentry : r'.pte m.owner = r.pte m.owner := by
    rw [hmoved.pte_eq h hplan.init hwalks]
    unfold after
    rw [hnone]
    rfl
  generalize hT : r.table m.owner = T
  have hTfree : s.free T = false := hT ▸ h.table_not_free hwalks
  have hTdest := hplan.init.not_dest hTfree
  have hpage : T ≠ m.page := hT ▸ h.table_ne_page howned
  have hhome : ∀ q, (∀ a ∈ moves ++ [m], a.dest ≠ q) → homeOf moves q ≠ m.dest := by
    intro q hq heq
    rcases hplan.init.homeOf_cases q with ⟨-, hsame⟩ | ⟨m', hm', -, hdest⟩
    · exact hq m hlast (heq.symm.trans hsame)
    · exact (hfresh m' hm').2 (hdest.symm.trans heq)
  have hTnot := hplan.not_dest hTfree
  have hcopy : (r'.copyPage m.page m.dest).phys = update r'.phys m.dest (r'.phys m.page) := by
    unfold Ram.copyPage
    rw [hmoved.kseg0, h.kseg0 _ hlow.1, h.kseg0 _ hlow.2]
  have hdirdest : r.dir ≠ m.dest := fun heq => by
    have hnot := h.dir_not_free
    rw [heq, hfree] at hnot
    cases hnot
  have htable : (r'.copyPage m.page m.dest).table m.owner = homeOf moves T := by
    rw [← hT, ← hmoved.table_eq h hplan.init hwalks]
    unfold Ram.table Ram.pde
    rw [hcopy, update_of_ne]
    · rfl
    · exact fun heq => hdirdest (hmoved.dir.symm.trans heq)
  have hphys : ∀ f v, (r'.relocate m).phys f v =
      if f = homeOf moves T ∧ v = m.owner % 1024 then mkEntry m.dest (r.pte m.owner &&& 0xFFF)
      else if f = m.dest then r'.phys m.page v else r'.phys f v := by
    intro f v
    unfold Ram.relocate Ram.setPte
    dsimp only
    rw [htable, hcopy, hentry]
    by_cases hf : f = homeOf moves T
    · subst hf
      rw [update_self]
      by_cases hv : v = m.owner % 1024
      · subst hv
        rw [update_self, if_pos ⟨rfl, rfl⟩]
      · rw [update_of_ne hv, if_neg (fun hboth => hv hboth.2),
          update_of_ne (hhome T hTnot), if_neg (hhome T hTnot)]
    · rw [update_of_ne hf, if_neg (fun hboth => hf hboth.1)]
      by_cases hd : f = m.dest
      · subst hd
        rw [update_self, if_pos rfl]
      · rw [update_of_ne hd, if_neg hd]
  refine ⟨hmoved.dir, hmoved.kseg0, ?_⟩
  intro q hq w
  have hqinit : ∀ a ∈ moves, a.dest ≠ q := fun a ha => hq a (List.mem_append_left _ ha)
  rw [hphys]
  by_cases hqp : q = m.page
  · -- the page that moves now, with what earlier moves wrote into it
    subst hqp
    have hstay : homeOf moves m.page = m.page :=
      Plan.homeOf_other fun a ha => (hfresh a ha).1
    rw [hplan.homeOf_page hlast, if_neg (fun hboth => hhome T hTnot hboth.1.symm), if_pos rfl,
      after_snoc_other (fun hboth => hpage (hT.symm.trans hboth.1)),
      ← hmoved.contents m.page hqinit w, hstay]
  · rw [hplan.homeOf_snoc hqp]
    by_cases hboth : homeOf moves q = homeOf moves T ∧ w = m.owner % 1024
    · have hqT : q = T := hplan.init.homeOf_inj hqinit hTdest hboth.1
      rw [if_pos hboth, hqT, ← hT, hboth.2, after_snoc_self hnone]
    · rw [if_neg hboth, if_neg (hhome q hq), hmoved.contents q hqinit w, after_snoc_other]
      rintro ⟨hin, hat⟩
      exact hboth ⟨by rw [← hin, hT], hat.symm⟩

theorem relocateAll_moved (h : Layout r s) (hplan : Plan s moves) :
    Moved r (r.relocateAll moves) moves := by
  induction moves using List.reverseRecOn with
  | nil => exact Moved.nil r
  | append_singleton moves m ih =>
    have hstep := (ih hplan.init).snoc h hplan
    unfold Ram.relocateAll at *
    rwa [List.foldl_append]

/-! ## Entries keep their low bits -/

theorem mkEntry_low (pfn x : Nat) : mkEntry pfn (x &&& 0xFFF) &&& 0xFFF = x &&& 0xFFF := by
  have hzero : pfn <<< 12 &&& 0xFFF = 0 := by
    rw [show (0xFFF : Nat) = 2 ^ 12 - 1 from rfl, Nat.and_two_pow_sub_one_eq_mod, Nat.shiftLeft_eq]
    omega
  unfold mkEntry
  rw [Nat.and_or_distrib_right, hzero, Nat.zero_or, Nat.and_assoc, Nat.and_self]

theorem after_low (r : Ram) (moves : List Supply.Move) (q w : Nat) :
    after r moves q w &&& 0xFFF = r.phys q w &&& 0xFFF := by
  unfold after
  split
  · exact mkEntry_low _ _
  · rfl

/-- Bits of an entry among the low twelve. -/
theorem and_of_low {x y mask : Nat} (h : x &&& 0xFFF = y &&& 0xFFF) (hmask : 0xFFF &&& mask = mask) :
    x &&& mask = y &&& mask := by
  rw [← hmask, ← Nat.and_assoc, h, Nat.and_assoc]

theorem present_of_low {x y : Nat} (h : x &&& 0xFFF = y &&& 0xFFF) : present x = present y := by
  unfold present
  rw [and_of_low h (by decide)]

theorem large_of_low {x y : Nat} (h : x &&& 0xFFF = y &&& 0xFFF) : large x = large y := by
  unfold large
  rw [and_of_low h (by decide)]

namespace Moved

variable {r' : Ram} (h : Layout r s) (hplan : Plan s moves) (hmoved : Moved r r' moves)
include h hplan hmoved

theorem pde_low (i : Nat) : r'.pde i &&& 0xFFF = r.pde i &&& 0xFFF := by
  rw [hmoved.pde_eq h hplan]
  exact after_low _ _ _ _

theorem walks_iff : r'.Walks e ↔ r.Walks e := by
  have hlow := hmoved.pde_low h hplan (e / 1024)
  unfold Ram.Walks
  rw [present_of_low hlow, large_of_low hlow]

theorem pte_low (hw : r.Walks e) : r'.pte e &&& 0xFFF = r.pte e &&& 0xFFF := by
  rw [hmoved.pte_eq h hplan hw]
  exact after_low _ _ _ _

theorem refers_iff : r'.Refers e ↔ r.Refers e := by
  unfold Ram.Refers
  rw [hmoved.walks_iff h hplan]
  refine and_congr_right fun hw => ?_
  rw [large_of_low (hmoved.pte_low h hplan hw)]

/-- An entry is the owner entry of a page that was moved and maps the new frame, or it is as it
was. -/
theorem entry_cases (hr : r.Refers e) :
    (∃ m ∈ moves, m.owner = e ∧ frame (r'.pte e) = m.dest) ∨
      ((∀ m ∈ moves, m.owner ≠ e) ∧ r'.pte e = r.pte e) := by
  have hpte := hmoved.pte_eq h hplan hr.1
  unfold after at hpte
  cases hm : mover r moves (r.table e) (e % 1024) with
  | some m =>
    obtain ⟨hmem, hin, hat⟩ := mover_mem hm
    rw [hm] at hpte
    have howned := hplan.owned m hmem
    have hsame : r.pte e = r.pte m.owner := by
      unfold Ram.pte
      rw [hin, hat]
    refine Or.inl ⟨m, hmem, (h.only howned hr ?_).symm, ?_⟩
    · rw [hsame]
      exact (h.owned howned).2
    · rw [hpte]
      exact frame_mkEntry _ (Nat.and_lt_two_pow _ (by decide))
  | none =>
    rw [hm] at hpte
    refine Or.inr ⟨?_, hpte⟩
    rintro m hmem rfl
    exact mover_none hm hmem rfl rfl

/-- What an owned entry maps is the page it owned, at its new place. -/
theorem frame_eq (ho : Owned s p e) : frame (r'.pte e) = homeOf moves p := by
  obtain ⟨hr, hframe⟩ := h.owned ho
  rcases hmoved.entry_cases h hplan hr with ⟨m, hm, howner, hdest⟩ | ⟨hnot, hsame⟩
  · have hpage : m.page = p := by
      rw [← hframe, ← howner]
      exact (h.owned (hplan.owned m hm)).2.symm
    rw [hdest, ← hpage, hplan.homeOf_page hm]
  · rw [hsame, hframe, Plan.homeOf_other]
    rintro m hm rfl
    exact hnot m hm ((hplan.owned m hm).page_inj ho)

end Moved

end

/-! ## The call -/

section
variable {r r' : Ram} {s t : Supply} {moves : List Supply.Move} {base run p e : Nat}

/-- The moves of a run whose pages can all be taken. -/
theorem plan_of_relocated (hbase : 1 ≤ base) (hhigh : base + run ≤ s.highestPfn + 1)
    (htake : ∀ q, inRun base run q = true → s.Takeable q)
    (hrel : Relocated s t base (base + run - 1) base (base + run) moves) : Plan s moves := by
  refine ⟨?_, fun m hm => (hrel.dest m hm).1, hrel.page_nodup, hrel.dest_nodup⟩
  intro m hm
  obtain ⟨hlow, hlt, hinUse, howner⟩ := hrel.source m hm
  refine ⟨⟨by omega, by omega, hinUse, howner.symm⟩, ?_⟩
  rw [howner]
  rcases htake m.page (inRun_iff.2 ⟨hlow, hlt⟩) with hfree | hlinks
  · rw [hinUse] at hfree
    cases hfree
  · exact hlinks

/-- A page owned afterwards is a destination, or was owned and is not in the run. -/
theorem owned_cases (hrel : Relocated s t base (base + run - 1) base (base + run) moves)
    (ho : Owned t p e) :
    (∃ m ∈ moves, m.dest = p ∧ m.owner = e) ∨
      (Owned s p e ∧ ¬(base ≤ p ∧ p < base + run) ∧ ∀ m ∈ moves, m.dest ≠ p) := by
  obtain ⟨⟨hpos, hle, hinUse, howner⟩, hne⟩ := ho
  by_cases hdest : ∃ m ∈ moves, m.dest = p
  · obtain ⟨m, hm, rfl⟩ := hdest
    exact Or.inl ⟨m, hm, rfl, (hrel.dest m hm).2.2.symm.trans howner⟩
  have hnot : ∀ m ∈ moves, m.dest ≠ p := fun m hm hd => hdest ⟨m, hm, hd⟩
  have hout : ¬(base ≤ p ∧ p < base + run) := fun hin =>
    hne (howner.symm.trans (hrel.run_links p hin.1 hin.2))
  have hused : s.free p = false := by
    rw [← Bool.not_eq_true]
    intro hfree
    refine absurd ((hrel.free_iff p).2 ⟨hfree, hout, ?_⟩) (by rw [hinUse]; decide)
    intro hmem
    obtain ⟨m, hm, hd⟩ := List.mem_map.1 hmem
    exact hnot m hm hd
  refine Or.inr ⟨⟨⟨hpos, ?_, hused, ?_⟩, hne⟩, hout, hnot⟩
  · rw [← hrel.highest]
    exact hle
  · rw [← hrel.frame p hused hout]
    exact howner

/-- The layout holds again. -/
theorem Layout.relocated (h : Layout r s) (hplan : Plan s moves) (hmoved : Moved r r' moves)
    (hrel : Relocated s t base (base + run - 1) base (base + run) moves) : Layout r' t where
  supply := hrel.inv
  low := by
    rw [hrel.highest]
    exact h.low
  kseg0 := by
    rw [hmoved.kseg0]
    exact h.kseg0
  selfMap := by
    have hlow := hmoved.pde_low h hplan 0x300
    have hw : r.Walks 0xC0000 := ⟨by decide, h.selfMap.1, h.selfMap.2.1⟩
    have htable := hmoved.table_eq h hplan hw
    have hdir : r.table 0xC0000 = r.dir := h.selfMap.2.2
    rw [hdir, Plan.homeOf_other fun m hm hpage => h.dir (hpage ▸ hplan.owned m hm)] at htable
    refine ⟨?_, ?_, ?_⟩
    · rw [present_of_low hlow]
      exact h.selfMap.1
    · rw [large_of_low hlow]
      exact h.selfMap.2.1
    · rw [hmoved.dir]
      exact htable
  owned := by
    intro p e ho
    rw [hmoved.refers_iff h hplan]
    rcases owned_cases hrel ho with ⟨m, hm, rfl, rfl⟩ | ⟨hs, hout, -⟩
    · have howned := hplan.owned m hm
      refine ⟨(h.owned howned).1, ?_⟩
      rw [hmoved.frame_eq h hplan howned, hplan.homeOf_page hm]
    · refine ⟨(h.owned hs).1, ?_⟩
      rw [hmoved.frame_eq h hplan hs, Plan.homeOf_other]
      rintro m hm rfl
      obtain ⟨hlow, hlt, -, -⟩ := hrel.source m hm
      exact hout ⟨hlow, hlt⟩
  only := by
    intro p e e' ho hr hframe
    rw [hmoved.refers_iff h hplan] at hr
    rcases hmoved.entry_cases h hplan hr with ⟨m, hm, howner, hdest⟩ | ⟨-, hsame⟩
    · rw [← howner, ← (hrel.dest m hm).2.2, ← hdest, hframe]
      exact ho.1.owner
    · rw [hsame] at hframe
      rcases owned_cases hrel ho with ⟨m, hm, rfl, -⟩ | ⟨hs, -, -⟩
      · have hnot := h.free hr
        rw [hframe, (hrel.dest m hm).1] at hnot
        cases hnot
      · exact h.only hs hr hframe
  free := by
    intro e hr
    rw [hmoved.refers_iff h hplan] at hr
    rcases hmoved.entry_cases h hplan hr with ⟨m, hm, -, hdest⟩ | ⟨-, hsame⟩
    · rw [hdest, ← Bool.not_eq_true, hrel.free_iff]
      rintro ⟨-, -, hnot⟩
      exact hnot (List.mem_map_of_mem hm)
    · rw [hsame]
      exact hrel.inUse (h.free hr)
  dir := by
    intro e ho
    rw [hmoved.dir] at ho
    rcases owned_cases hrel ho with ⟨m, hm, hdest, -⟩ | ⟨hs, -, -⟩
    · exact hplan.not_dest h.dir_not_free m hm hdest
    · exact h.dir hs

/-- A successful call. -/
structure Preserved (r r' : Ram) (s t : Supply) (runPages lowPfn highPfn alignPages base : Nat)
    (moves : List Supply.Move) : Prop where
  contents : ∀ {p e}, Owned s p e → r'.pte e &&& 0xFFF = r.pte e &&& 0xFFF ∧
    ∀ w, r'.phys (frame (r'.pte e)) w = after r moves p w
  layout : Layout r' t
  window : s.InRunWindow runPages lowPfn highPfn base ∧
    alignDown base (Supply.effectiveAlign alignPages) = base
  run : ∀ q, inRun base runPages q = true →
    t.free q = false ∧ ∀ e, r'.Refers e → frame (r'.pte e) ≠ q
  elsewhere : ∀ q, inRun base runPages q = false → (∀ m ∈ moves, m.dest ≠ q) →
    ∀ w, r'.phys q w = after r moves q w
  dests : ∀ m ∈ moves, s.free m.dest = true ∧ inRun base runPages m.dest = false

/-- When `NxkPageSupplyTakeRunRelocate` succeeds, every owned entry keeps its low bits and shows
the words it showed before, the layout holds again, the run is aligned, in the window, and neither
free nor mapped, and frames elsewhere keep their words.  The one exception in all of these are the
owner entries of the moved pages, which hold the new frames with the low bits kept. -/
theorem relocation_preserves (h : Layout r s) {runPages lowPfn highPfn alignPages : Nat}
    (hcall : s.nxkPageSupplyTakeRunRelocate runPages lowPfn highPfn alignPages = (t, base, moves))
    (hbase : base ≠ 0) :
    Preserved r (r.relocateAll moves) s t runPages lowPfn highPfn alignPages base moves := by
  rcases h.supply.takeRunRelocate_spec hcall with ⟨-, hzero, -⟩ |
    ⟨base', hi, -, hwindow, halign, -, htake, hrel, hdone⟩
  · exact absurd hzero hbase
  obtain ⟨rfl, rfl⟩ := hdone hbase
  have hplan := plan_of_relocated hwindow.1 hwindow.2.2.2 htake hrel
  have hmoved := relocateAll_moved h hplan
  have hdests : ∀ m ∈ moves, inRun base runPages m.dest = false := by
    intro m hm
    have hout := (hrel.dest m hm).2.1
    rw [← Bool.not_eq_true, inRun_iff]
    unfold Supply.inWindow at hout
    rw [decide_eq_false_iff_not] at hout
    omega
  refine ⟨?_, h.relocated hplan hmoved hrel, ⟨hwindow, halign⟩, ?_, ?_,
    fun m hm => ⟨hplan.free m hm, hdests m hm⟩⟩
  · intro p e ho
    refine ⟨hmoved.pte_low h hplan (h.owned ho).1.1, fun w => ?_⟩
    rw [hmoved.frame_eq h hplan ho]
    exact hmoved.contents p (hplan.not_dest ho.not_free) w
  · intro q hq
    have hin := inRun_iff.1 hq
    refine ⟨hrel.run_inUse hin.1 hin.2, fun e hr hframe => ?_⟩
    rw [hmoved.refers_iff h hplan] at hr
    rcases hmoved.entry_cases h hplan hr with ⟨m, hm, -, hdest⟩ | ⟨hnot, hsame⟩
    · have hout := hdests m hm
      rw [← hdest, hframe, hq] at hout
      cases hout
    rw [hsame] at hframe
    have hinUse := h.free hr
    rw [hframe] at hinUse
    rcases htake q hq with hfree | hlinks
    · rw [hinUse] at hfree
      cases hfree
    · obtain ⟨m, hm, rfl⟩ := hrel.moved q hin.1 hin.2 hinUse
      exact hnot m hm (h.only (hplan.owned m hm) hr hframe).symm
  · intro q hq hdest w
    rw [← hmoved.contents q hdest w, Plan.homeOf_other]
    rintro m hm rfl
    obtain ⟨hlow, hlt, -, -⟩ := hrel.source m hm
    rw [inRun_iff.2 ⟨hlow, hlt⟩] at hq
    cases hq

end

/-! ## A page and its table -/

/-- One free page, and one page owned by the entry of the address `0x1000`. -/
def twoPages : Supply :=
  [Op.giveBack 0x3400, .setOwner 0x3000 0xC0000004].foldl Op.apply
    (Supply.nxkPageSupplyInitialize 0x3FFF true)

theorem twoPages_inv : Inv twoPages :=
  Inv.reached (by decide) (by decide) (Reached.ops (.start rfl) _ (by decide))

theorem twoPages_links : twoPages.links =
    update (update (fun _ => 0) 0x3400 nxpFree) 0x3000 1 := rfl

theorem twoPages_owned {p e : Nat} (h : Owned twoPages p e) : p = 0x3000 ∧ e = 1 := by
  have howner := h.1.owner
  rw [twoPages_links] at howner
  by_cases hp : p = 0x3000
  · subst hp
    exact ⟨rfl, howner.symm⟩
  · rw [update_of_ne hp] at howner
    by_cases hfree : p = 0x3400
    · subst hfree
      exact absurd h.not_free (by decide)
    · rw [update_of_ne hfree] at howner
      exact absurd howner.symm h.2

/-- The directory in frame `0x10`, the page table in `0x11`. -/
def smallRam : Ram where
  phys := update (update (fun _ _ => 0)
    0x10 (update (update (fun _ => 0) 0 0x11067) 0x300 0x10067))
    0x11 (update (fun _ => 0) 1 0x3000067)
  dir := 0x10
  kseg0 := id

theorem smallRam_pde (i : Nat) : smallRam.pde i =
    if i = 0x300 then 0x10067 else if i = 0 then 0x11067 else 0 := by
  show update (update (fun _ => 0) 0 0x11067) 0x300 0x10067 i = _
  simp only [update_apply]

theorem smallRam_table (w : Nat) : smallRam.phys 0x11 w = if w = 1 then 0x3000067 else 0 := by
  show update (fun _ => 0) 1 0x3000067 w = _
  rw [update_apply]

/-- The entries of the small machine. -/
theorem smallRam_refers {e : Nat} (h : smallRam.Refers e) :
    (e = 1 ∧ frame (smallRam.pte e) = 0x3000) ∨ frame (smallRam.pte e) ∈ [0, 0x10, 0x11] := by
  have hpresent := h.1.2.1
  have hpte : smallRam.pte e = smallRam.phys (smallRam.table e) (e % 1024) := rfl
  have htable : smallRam.table e = frame (smallRam.pde (e / 1024)) := rfl
  rw [smallRam_pde] at hpresent htable
  by_cases hself : e / 1024 = 0x300
  · rw [if_pos hself] at htable
    have hword : smallRam.pte e = smallRam.pde (e % 1024) := by
      rw [hpte, htable]
      rfl
    rw [hword, smallRam_pde]
    right
    split
    · decide
    · split <;> decide
  · rw [if_neg hself] at hpresent htable
    by_cases hzero : e / 1024 = 0
    · rw [if_pos hzero] at htable
      rw [hpte, htable, show frame 0x11067 = 0x11 from rfl, smallRam_table]
      split
      · exact Or.inl ⟨by omega, by decide⟩
      · exact Or.inr (by decide)
    · rw [if_neg hzero] at hpresent
      cases hpresent

theorem smallRam_layout : Layout smallRam twoPages where
  supply := twoPages_inv
  low := by decide
  kseg0 := fun _ _ => rfl
  selfMap := by decide
  owned := by
    intro p e h
    obtain ⟨rfl, rfl⟩ := twoPages_owned h
    exact ⟨⟨⟨by decide, by decide, by decide⟩, by decide⟩, by decide⟩
  only := by
    intro p e e' h hr hframe
    obtain ⟨rfl, rfl⟩ := twoPages_owned h
    rcases smallRam_refers hr with ⟨he, -⟩ | hmem
    · exact he
    · rw [hframe] at hmem
      exact absurd hmem (by decide)
  free := by
    intro e hr
    have hfree : ∀ f ∈ [0, 0x10, 0x11, 0x3000], twoPages.free f = false := by decide
    refine hfree _ ?_
    rcases smallRam_refers hr with ⟨-, hframe⟩ | hmem
    · rw [hframe]
      decide
    · exact List.mem_append_left [0x3000] hmem
  dir := by
    intro e h
    exact absurd (twoPages_owned h).1 (by decide)

theorem twoPages_call : ∃ t, twoPages.nxkPageSupplyTakeRunRelocate 1 0x3000 0x3000 1 =
    (t, 0x3000, [⟨0x3000, 0x3400, 1⟩]) := by
  have hrest : (twoPages.nxkPageSupplyTakeRunRelocate 1 0x3000 0x3000 1).2 =
      (0x3000, [⟨0x3000, 0x3400, 1⟩]) := by decide +kernel
  exact ⟨_, Prod.ext rfl hrest⟩

/-- The page moves from frame `0x3000` to `0x3400`, and is seen unchanged through its entry. -/
theorem relocation_preserves_twoPages :
    let r := smallRam.relocateAll [⟨0x3000, 0x3400, 1⟩]
    frame (r.pte 1) = 0x3400 ∧ ∀ w, r.phys 0x3400 w = smallRam.phys 0x3000 w := by
  obtain ⟨t, hcall⟩ := twoPages_call
  have hpreserved := relocation_preserves smallRam_layout hcall (by decide)
  have howned : Owned twoPages 0x3000 1 := ⟨⟨by decide, by decide, by decide, by decide⟩, by decide⟩
  have hframe : frame ((smallRam.relocateAll [⟨0x3000, 0x3400, 1⟩]).pte 1) = 0x3400 := by decide +kernel
  refine ⟨hframe, fun w => ?_⟩
  have hcontents := (hpreserved.contents howned).2 w
  rwa [hframe] at hcontents

/-- The page table of the moved page lies outside the window and is no destination, and its word
changes. -/
theorem relocation_writes_tables : ∃ (r : Ram) (s t : Supply) (moves : List Supply.Move),
    Layout r s ∧ s.nxkPageSupplyTakeRunRelocate 1 0x3000 0x3000 1 = (t, 0x3000, moves) ∧
    inRun 0x3000 1 0x11 = false ∧ (∀ m ∈ moves, m.dest ≠ 0x11) ∧
    (r.relocateAll moves).phys 0x11 1 ≠ r.phys 0x11 1 := by
  obtain ⟨t, hcall⟩ := twoPages_call
  exact ⟨smallRam, twoPages, t, _, smallRam_layout, hcall, by decide, by decide, by decide +kernel⟩

end Roswell.Ports.RelocateMemory
