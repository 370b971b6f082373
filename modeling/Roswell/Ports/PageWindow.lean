import Roswell.Ports.PageSupplyRuns
import Roswell.Ports.PageTables

/-!
# Windows of kernel address space backed from the supply

The pool window and the system aperture are ranges of virtual pages whose page
tables and pages both come from the supply.  `Backed` is what their page-table
entries mean: each present entry, of the window or of a page table over it,
holds a page in use, and no two hold the same page.

The elementary updates below, a new page table, a page mapped and a page
unmapped, conserve pages: a page is free or held by an entry after them exactly
when it was before.  Every loop of the two allocators is a sequence of such
updates.  `Filled` and `Emptied` say what such a loop has done to a range of
entries.
-/

namespace Roswell.Ports.PageTables

open PageSupply Function

/-- Write the page directory entry of a 4 MiB span, whose page table is a zero
filled page. -/
def Machine.setTable (m : Machine) (span entry : Nat) : Machine :=
  { m with
    pt := update (fun i => if i / 1024 = span then 0 else m.pt i) (0xC0000 + span) entry }

/-- Whole 4 MiB spans of kernel address space above the self map, as indices of
entries. -/
structure Window where
  base : Nat
  pages : Nat
  base_dvd : 1024 ∣ base
  pages_dvd : 1024 ∣ pages
  base_ge : 0xC0400 ≤ base
  last_le : base + pages ≤ 0x100000

namespace Window

variable (w : Window)

/-- The entry of a page of the window. -/
def Has (i : Nat) : Prop := w.base ≤ i ∧ i < w.base + w.pages

/-- The page directory entry of a page table over the window. -/
def Table (d : Nat) : Prop := ∃ i, w.Has i ∧ d = 0xC0000 + i / 1024

def Entry (i : Nat) : Prop := w.Has i ∨ w.Table i

/-- The page is held by a present entry. -/
def Holds (m : Machine) (page : Nat) : Prop :=
  ∃ i, w.Entry i ∧ present (m.pt i) = true ∧ frame (m.pt i) = page

variable {w : Window} {i d : Nat}

theorem Has.table (h : w.Has i) : w.Table (0xC0000 + i / 1024) := ⟨i, h, rfl⟩

theorem Has.ge (h : w.Has i) : 0xC0400 ≤ i := Nat.le_trans w.base_ge h.1

theorem Has.lt (h : w.Has i) : i < 0x100000 := Nat.lt_of_lt_of_le h.2 w.last_le

theorem Table.lt (h : w.Table d) : 0xC0000 ≤ d ∧ d < 0xC0400 := by
  obtain ⟨i, hi, rfl⟩ := h
  have := hi.lt
  omega

theorem Has.not_table (h : w.Has i) : ¬w.Table i := by
  intro ht
  have h1 := h.ge
  have h2 := ht.lt
  omega

/-- The window covers every span it touches. -/
theorem Has.of_span {j : Nat} (h : w.Has i) (hj : j / 1024 = i / 1024) : w.Has j := by
  obtain ⟨a, ha⟩ := w.base_dvd
  obtain ⟨b, hb⟩ := w.pages_dvd
  have h1 := h.1
  have h2 := h.2
  constructor <;> omega

theorem Table.has_of_span {j : Nat} (h : w.Table d) (hj : 0xC0000 + j / 1024 = d) : w.Has j := by
  obtain ⟨i, hi, rfl⟩ := h
  exact hi.of_span (by omega)

end Window

/-- Every present entry of the window and its page tables holds a page of its
own. -/
structure Backed (w : Window) (m : Machine) : Prop where
  supply : Inv m.supply
  table : ∀ i, w.Has i → present (m.pt (0xC0000 + i / 1024)) = false → m.pt i = 0
  whole : ∀ i, w.Has i → m.pt i ≠ 0 → present (m.pt i) = true
  inUse : ∀ i, w.Entry i → present (m.pt i) = true →
    frame (m.pt i) ≠ 0 ∧ frame (m.pt i) ≤ m.supply.highestPfn ∧
      m.supply.free (frame (m.pt i)) = false
  inj : ∀ i j, w.Entry i → w.Entry j → present (m.pt i) = true → present (m.pt j) = true →
    frame (m.pt i) = frame (m.pt j) → i = j

/-- `t` is `s` after updates that move pages only between the supply and the
entries of the window, and leave page tables in place. -/
structure Conserves (w : Window) (s t : Machine) : Prop where
  backed : Backed w t
  pages : ∀ p, (t.supply.free p = true ∨ w.Holds t p) ↔ (s.supply.free p = true ∨ w.Holds s p)
  tables : ∀ d, w.Table d → present (s.pt d) = true → t.pt d = s.pt d
  outside : ∀ i, ¬w.Entry i → t.pt i = s.pt i

variable {w : Window} {s t u : Machine}

namespace Conserves

theorem refl (h : Backed w s) : Conserves w s s :=
  ⟨h, fun _ => Iff.rfl, fun _ _ _ => rfl, fun _ _ => rfl⟩

theorem trans (h₁ : Conserves w s t) (h₂ : Conserves w t u) : Conserves w s u := by
  refine ⟨h₂.backed, fun p => (h₂.pages p).trans (h₁.pages p), ?_, ?_⟩
  · intro d hd hp
    have ht := h₁.tables d hd hp
    rw [h₂.tables d hd (by rw [ht]; exact hp), ht]
  · intro i hi
    rw [h₂.outside i hi, h₁.outside i hi]

/-- When the entries of the window are as before, the pages that left the
supply are page tables, and none came to it. -/
theorem free_of_same (h : Conserves w s t) (hs : Backed w s)
    (hsame : ∀ i, w.Has i → t.pt i = s.pt i) (p : Nat) :
    (t.supply.free p = true → s.supply.free p = true) ∧
      (s.supply.free p = true → t.supply.free p = true ∨
        ∃ d, w.Table d ∧ present (s.pt d) = false ∧ present (t.pt d) = true ∧
          frame (t.pt d) = p) := by
  have hback : ∀ i, w.Entry i → present (s.pt i) = true → t.pt i = s.pt i := by
    intro i hi hp
    rcases hi with hi | hi
    · exact hsame i hi
    · exact h.tables i hi hp
  constructor
  · intro hf
    rcases (h.pages p).1 (.inl hf) with hs | ⟨i, hi, hp, rfl⟩
    · exact hs
    · have hti := hback i hi hp
      have huse := h.backed.inUse i hi (by rw [hti]; exact hp)
      rw [hti, hf] at huse
      exact absurd huse.2.2 nofun
  · intro hf
    rcases (h.pages p).2 (.inl hf) with ht | ⟨i, hi, hp, rfl⟩
    · exact .inl ht
    right
    have hnot : ¬present (s.pt i) = true := by
      intro hps
      have huse := (hs.inUse i hi hps).2.2
      rw [← hback i hi hps, hf] at huse
      contradiction
    rcases hi with hi | hi
    · rw [hsame i hi] at hp
      exact absurd hp hnot
    · exact ⟨i, hi, by simpa using hnot, hp, rfl⟩

end Conserves

namespace Backed

variable {supply : Supply}

/-- Nothing is mapped yet. -/
theorem bare (w : Window) (h : Inv supply) :
    Backed w ⟨fun _ => 0, supply⟩ := by
  have habs : present 0 ≠ true := by decide
  exact ⟨h, fun _ _ _ => rfl, fun _ _ hne => absurd rfl hne, fun _ _ hp => absurd hp habs,
    fun _ _ _ _ hp => absurd hp habs⟩

/-- A change of an owner word moves no page. -/
theorem setOwner (h : Backed w s) (page pteVa : Nat) :
    Conserves w s { s with supply := s.supply.nxkPageSupplySetOwner page pteVa } := by
  have hfree : ∀ q, (s.supply.nxkPageSupplySetOwner page pteVa).free q = s.supply.free q :=
    (setOwner_free s.supply page pteVa)
  have hhigh : (s.supply.nxkPageSupplySetOwner page pteVa).highestPfn = s.supply.highestPfn :=
    setOwner_highestPfn s.supply page pteVa
  refine ⟨⟨h.supply.setOwner page pteVa, h.table, h.whole, ?_, h.inj⟩, ?_, fun _ _ _ => rfl,
    fun _ _ => rfl⟩
  · intro i hi hp
    rw [hfree, hhigh]
    exact h.inUse i hi hp
  · intro p
    show (s.supply.nxkPageSupplySetOwner page pteVa).free p = true ∨ w.Holds s p ↔ _
    rw [hfree]

/-- A page from the supply is put into an entry that held none. -/
private theorem fill (h : Backed w s) {i pfn e : Nat} (htook : Took s.supply supply pfn)
    (hi : w.Entry i) (habs : present (s.pt i) = false) (hpres : present e = true)
    (hfr : frame e = pfn) (htable : w.Has i → present (s.pt (0xC0000 + i / 1024)) = true) :
    Conserves w s ⟨update s.pt i e, supply⟩ := by
  subst hfr
  have hself : update s.pt i e i = e := update_self ..
  have hother : ∀ j, j ≠ i → update s.pt i e j = s.pt j := fun j hj => update_of_ne hj ..
  generalize update s.pt i e = pt at hself hother
  have hcases : ∀ j, pt j = e ∧ j = i ∨ pt j = s.pt j := by
    intro j
    by_cases hji : j = i
    · exact .inl ⟨hji ▸ hself, hji⟩
    · exact .inr (hother j hji)
  have hfree := htook.was_free
  have hdist : ∀ j, w.Entry j → present (s.pt j) = true → frame (s.pt j) ≠ frame e := by
    intro j hj hp he
    rw [← he, (h.inUse j hj hp).2.2] at hfree
    contradiction
  have hne : ∀ j, present (s.pt j) = true → j ≠ i := by
    rintro j hp rfl
    rw [habs] at hp
    contradiction
  -- a page of the supply other than the one taken moves nowhere
  have hholds : ∀ p, w.Holds ⟨pt, supply⟩ p ↔ w.Holds s p ∨ p = frame e := by
    intro p
    constructor
    · rintro ⟨j, hj, hp, rfl⟩
      rcases hcases j with ⟨hpt, -⟩ | hpt
      · exact .inr (congrArg frame hpt)
      · exact .inl ⟨j, hj, hpt ▸ hp, congrArg frame hpt.symm⟩
    · rintro (⟨j, hj, hp, rfl⟩ | rfl)
      · have hpt := hother j (hne j hp)
        exact ⟨j, hj, (congrArg present hpt).trans hp, congrArg frame hpt⟩
      · exact ⟨i, hi, (congrArg present hself).trans hpres, congrArg frame hself⟩
  refine ⟨⟨htook.inv, ?_, ?_, ?_, ?_⟩, ?_, ?_, ?_⟩
  · intro j hj hjabs
    have htj : present (s.pt (0xC0000 + j / 1024)) = false := by
      rcases hcases (0xC0000 + j / 1024) with ⟨-, heq⟩ | hpt
      · rw [heq]
        exact habs
      · exact hpt ▸ hjabs
    have hji : j ≠ i := by
      rintro rfl
      rw [htable hj] at htj
      contradiction
    exact (hother j hji).trans (h.table j hj htj)
  · intro j hj hne
    dsimp only at hne ⊢
    rcases hcases j with ⟨hpt, -⟩ | hpt
    · rw [hpt]
      exact hpres
    · rw [hpt] at hne ⊢
      exact h.whole j hj hne
  · intro j hj hp
    dsimp only at hp ⊢
    rw [htook.highest]
    rcases hcases j with ⟨hpt, -⟩ | hpt
    · rw [hpt]
      exact ⟨h.supply.free_pos hfree, h.supply.free_le hfree, htook.not_free⟩
    · rw [hpt] at hp ⊢
      obtain ⟨h1, h2, h3⟩ := h.inUse j hj hp
      exact ⟨h1, h2, htook.inUse h3⟩
  · intro j k hj hk hpj hpk he
    dsimp only at hpj hpk he
    rcases hcases j with ⟨hptj, hji⟩ | hptj
    · rcases hcases k with ⟨-, hki⟩ | hptk
      · rw [hji, hki]
      · rw [hptk] at hpk he
        exact absurd (he.symm.trans (congrArg frame hptj)) (hdist k hk hpk)
    · rw [hptj] at hpj he
      rcases hcases k with ⟨hptk, -⟩ | hptk
      · exact absurd (he.trans (congrArg frame hptk)) (hdist j hj hpj)
      · rw [hptk] at hpk he
        exact h.inj j k hj hk hpj hpk he
  · intro p
    rw [hholds, htook.free]
    by_cases hp : p = frame e
    · subst hp
      simp [hfree]
    · simp [hp]
  · intro d _ hp
    exact hother d (hne d hp)
  · intro j hj
    exact hother j (fun heq => hj (heq ▸ hi))

/-- A page table for a span that has none: all its entries were zero before, too. -/
theorem newTable (h : Backed w s) {span pfn bits : Nat}
    (htook : Took s.supply supply pfn) (hd : w.Table (0xC0000 + span))
    (habs : present (s.pt (0xC0000 + span)) = false) (hbits : bits < 2 ^ 12)
    (hpres : present (mkEntry pfn bits) = true) :
    Conserves w s { s.setTable span (mkEntry pfn bits) with supply := supply } ∧
      (∀ i, w.Has i → (s.setTable span (mkEntry pfn bits)).pt i = s.pt i) ∧
      present ((s.setTable span (mkEntry pfn bits)).pt (0xC0000 + span)) = true := by
  have hclear : (fun i => if i / 1024 = span then 0 else s.pt i) = s.pt := by
    funext j
    split_ifs with hj
    · subst hj
      exact (h.table j (hd.has_of_span rfl) habs).symm
    · rfl
  unfold Machine.setTable
  rw [hclear]
  refine ⟨h.fill htook (.inr hd) habs hpres (frame_mkEntry pfn hbits)
    (fun hh => absurd hd hh.not_table), ?_, ?_⟩
  · intro i hi
    refine update_of_ne ?_ ..
    rintro rfl
    exact hi.not_table hd
  · dsimp only
    rw [update_self]
    exact hpres

/-- A page for an entry of the window that has none. -/
theorem map (h : Backed w s) {i pfn bits : Nat}
    (htook : Took s.supply supply pfn) (hi : w.Has i) (h0 : s.pt i = 0)
    (htable : present (s.pt (0xC0000 + i / 1024)) = true) (hbits : bits < 2 ^ 12)
    (hpres : present (mkEntry pfn bits) = true) :
    Conserves w s { s.setEntry i (mkEntry pfn bits) with supply := supply } := by
  have habs : present (s.pt i) = false := by
    rw [h0]
    rfl
  exact h.fill htook (.inl hi) habs hpres (frame_mkEntry pfn hbits) (fun _ => htable)

/-- The page of an entry goes back to the supply. -/
theorem unmap (h : Backed w s) {i : Nat} (hi : w.Has i) (hne : s.pt i ≠ 0) :
    Conserves w s { s.setEntry i 0 with
      supply := s.supply.nxkPageSupplyReturn (frame (s.pt i)) } := by
  have hpi := h.whole i hi hne
  obtain ⟨hpos, hle, huse⟩ := h.inUse i (.inl hi) hpi
  have hself : update s.pt i 0 i = 0 := update_self ..
  have hother : ∀ j, j ≠ i → update s.pt i 0 j = s.pt j := fun j hj => update_of_ne hj ..
  show Conserves w s ⟨update s.pt i 0, _⟩
  generalize update s.pt i 0 = pt at hself hother ⊢
  have hkeep : ∀ j, present (pt j) = true → j ≠ i ∧ pt j = s.pt j := by
    intro j hp
    have hji : j ≠ i := by
      rintro rfl
      rw [hself] at hp
      exact absurd hp nofun
    exact ⟨hji, hother j hji⟩
  have hdist : ∀ j, w.Entry j → present (s.pt j) = true → j ≠ i →
      frame (s.pt j) ≠ frame (s.pt i) := by
    intro j hj hp hji he
    exact hji (h.inj j i hj (.inl hi) hp hpi he)
  have hfree := h.supply.return_free hpos hle huse
  refine ⟨⟨h.supply.giveBack hpos hle huse, ?_, ?_, ?_, ?_⟩, ?_, ?_, ?_⟩
  · intro j hj habs
    show pt j = 0
    by_cases hji : j = i
    · rw [hji, hself]
    · rw [hother j hji]
      refine h.table j hj ?_
      rw [← hother _ (fun e => hi.not_table (e ▸ hj.table))]
      exact habs
  · intro j hj hj0
    dsimp only at hj0 ⊢
    have hji : j ≠ i := by
      rintro rfl
      exact hj0 hself
    rw [hother j hji] at hj0 ⊢
    exact h.whole j hj hj0
  · intro j hj hp
    obtain ⟨hji, hptj⟩ := hkeep j hp
    dsimp only at hp ⊢
    rw [hptj] at hp ⊢
    obtain ⟨h1, h2, h3⟩ := h.inUse j hj hp
    rw [Inv.return_highestPfn, hfree, h3, decide_eq_false (hdist j hj hp hji)]
    exact ⟨h1, h2, rfl⟩
  · intro j k hj hk hpj hpk he
    have hptj := (hkeep j hpj).2
    have hptk := (hkeep k hpk).2
    dsimp only at hpj hpk he
    rw [hptj] at hpj he
    rw [hptk] at hpk he
    exact h.inj j k hj hk hpj hpk he
  · intro p
    rw [hfree, Bool.or_eq_true, decide_eq_true_eq]
    constructor
    · rintro ((rfl | hf) | ⟨j, hj, hp, rfl⟩)
      · exact .inr ⟨i, .inl hi, hpi, rfl⟩
      · exact .inl hf
      · have hpt := (hkeep j hp).2
        exact .inr ⟨j, hj, hpt ▸ hp, congrArg frame hpt.symm⟩
    · rintro (hf | ⟨j, hj, hp, rfl⟩)
      · exact .inl (.inr hf)
      · by_cases hji : j = i
        · exact .inl (.inl (by rw [hji]))
        · have hpt := hother j hji
          exact .inr ⟨j, hj, (congrArg present hpt).trans hp, congrArg frame hpt⟩
  · intro d hd _
    exact hother d (fun e => hi.not_table (e ▸ hd))
  · intro j hj
    exact hother j (fun e => hj (e ▸ .inl hi))

end Backed

/-! ## Ranges of entries -/

/-- `t` is `s` with a page mapped at each entry from `lo` up to `hi`. -/
structure Filled (w : Window) (s t : Machine) (lo hi : Nat) : Prop where
  conserves : Conserves w s t
  mapped : ∀ i, lo ≤ i → i < hi → t.pt i ≠ 0
  entries : ∀ i, w.Has i → ¬(lo ≤ i ∧ i < hi) → t.pt i = s.pt i

/-- `t` is `s` with the entries from `lo` up to `hi` cleared and their pages
returned. -/
structure Emptied (w : Window) (s t : Machine) (lo hi : Nat) : Prop where
  conserves : Conserves w s t
  entries : ∀ i, w.Has i → t.pt i = if lo ≤ i ∧ i < hi then 0 else s.pt i
  tables : ∀ d, w.Table d → t.pt d = s.pt d

namespace Filled

variable {lo mid hi : Nat}

/-- No entry of the window changes. -/
theorem of_same (h : Conserves w s t) (hsame : ∀ i, w.Has i → t.pt i = s.pt i) (lo : Nat) :
    Filled w s t lo lo :=
  ⟨h, fun _ _ _ => by omega, fun i hi _ => hsame i hi⟩

/-- The entry after the range gets a page from the supply. -/
theorem push (h : Filled w s t lo hi) (hle : lo ≤ hi) {supply : Supply} {pfn bits : Nat}
    (htook : Took t.supply supply pfn) (hhas : w.Has hi) (h0 : s.pt hi = 0)
    (htable : present (t.pt (0xC0000 + hi / 1024)) = true) (hbits : bits < 2 ^ 12)
    (hpres : present (mkEntry pfn bits) = true) :
    Filled w s { t.setEntry hi (mkEntry pfn bits) with supply := supply } lo (hi + 1) := by
  have hb := h.conserves.backed
  have hpt0 : t.pt hi = 0 := (h.entries hi hhas (by omega)).trans h0
  refine ⟨h.conserves.trans (hb.map htook hhas hpt0 htable hbits hpres), ?_, ?_⟩
  · intro i h1 h2
    show update t.pt hi _ i ≠ 0
    by_cases hih : i = hi
    · rw [hih, update_self]
      refine ne_zero_of_frame ?_
      rw [frame_mkEntry _ hbits]
      exact hb.supply.free_pos htook.was_free
    · rw [update_of_ne hih]
      exact h.mapped i h1 (by omega)
  · intro i hi' hout
    exact (update_of_ne (by omega) ..).trans (h.entries i hi' (by omega))

theorem setOwner (h : Filled w s t lo hi) (page pteVa : Nat) :
    Filled w s { t with supply := t.supply.nxkPageSupplySetOwner page pteVa } lo hi :=
  { h with conserves := h.conserves.trans (h.conserves.backed.setOwner page pteVa) }

theorem trans (h₁ : Filled w s t lo mid) (h₂ : Filled w t u mid hi)
    (hlo : ∀ i, lo ≤ i → i < mid → w.Has i) (hle : lo ≤ mid) (hle' : mid ≤ hi) :
    Filled w s u lo hi := by
  refine ⟨h₁.conserves.trans h₂.conserves, ?_, ?_⟩
  · intro i h1 h2
    by_cases hm : i < mid
    · rw [h₂.entries i (hlo i h1 hm) (by omega)]
      exact h₁.mapped i h1 hm
    · exact h₂.mapped i (by omega) h2
  · intro i hi hout
    rw [h₂.entries i hi (by omega), h₁.entries i hi (by omega)]

end Filled

namespace Emptied

variable {lo hi a b c d : Nat}

theorem refl (h : Backed w s) (lo : Nat) : Emptied w s s lo lo :=
  ⟨.refl h, fun _ _ => (if_neg (by omega)).symm, fun _ _ => rfl⟩

/-- The page of one entry is returned, after updates of the supply that leave
the entries alone. -/
theorem one {supply : Supply} {i : Nat} (h : Conserves w s ⟨s.pt, supply⟩) (hi : w.Has i)
    (hne : s.pt i ≠ 0) :
    Emptied w s ⟨update s.pt i 0, supply.nxkPageSupplyReturn (frame (s.pt i))⟩
      i (i + 1) := by
  refine ⟨h.trans (h.backed.unmap hi hne), ?_, ?_⟩
  · intro j _
    show update s.pt i 0 j = _
    by_cases hji : j = i
    · rw [hji, update_self, if_pos ⟨Nat.le_refl _, Nat.lt_succ_self _⟩]
    · rw [update_of_ne hji, if_neg (by omega)]
  · intro d hd
    have hdi : d ≠ i := fun e => hi.not_table (e ▸ hd)
    exact update_of_ne hdi ..

/-- Two ranges that make up a third, in either order. -/
theorem trans (h₁ : Emptied w s t a b) (h₂ : Emptied w t u c d)
    (hr : ∀ i, (lo ≤ i ∧ i < hi) ↔ (a ≤ i ∧ i < b) ∨ (c ≤ i ∧ i < d)) :
    Emptied w s u lo hi := by
  refine ⟨h₁.conserves.trans h₂.conserves, ?_, ?_⟩
  · intro i hi
    rw [h₂.entries i hi, h₁.entries i hi]
    have := hr i
    by_cases h1 : a ≤ i ∧ i < b
    · rw [if_pos h1, if_pos (this.2 (.inl h1)), ite_self]
    · by_cases h2 : c ≤ i ∧ i < d
      · rw [if_pos h2, if_pos (this.2 (.inr h2))]
      · rw [if_neg h1, if_neg h2, if_neg (fun h => (this.1 h).elim h1 h2)]
  · intro e he
    rw [h₂.tables e he, h₁.tables e he]

/-- Clearing what was filled leaves the entries as they were. -/
theorem undo (h₂ : Emptied w t u lo hi) (h₁ : Filled w s t lo hi)
    (h0 : ∀ i, lo ≤ i → i < hi → s.pt i = 0) (i : Nat) (hi' : w.Has i) : u.pt i = s.pt i := by
  rw [h₂.entries i hi']
  split_ifs with hr
  · rw [h0 i hr.1 hr.2]
  · rw [h₁.entries i hi' hr]

/-- The pages that came to the supply are those of the cleared entries. -/
theorem free_iff (h : Emptied w s t lo hi) (hs : Backed w s) (p : Nat) :
    t.supply.free p = true ↔ s.supply.free p = true ∨
      ∃ i, w.Has i ∧ lo ≤ i ∧ i < hi ∧ s.pt i ≠ 0 ∧ frame (s.pt i) = p := by
  have hkeep : ∀ i, w.Entry i → present (t.pt i) = true → t.pt i = s.pt i := by
    intro i hi' hp
    rcases hi' with hi' | hi'
    · have he := h.entries i hi'
      by_cases hr : lo ≤ i ∧ i < hi
      · rw [he, if_pos hr] at hp
        exact absurd hp nofun
      · rw [he, if_neg hr]
    · exact h.tables i hi'
  constructor
  · intro hf
    rcases (h.conserves.pages p).1 (.inl hf) with hs | ⟨i, hi', hp, rfl⟩
    · exact .inl hs
    right
    -- an entry left alone would still hold the page
    have hgone : t.pt i ≠ s.pt i := by
      intro he
      have huse := h.conserves.backed.inUse i hi' (by rw [he]; exact hp)
      rw [he, hf] at huse
      exact absurd huse.2.2 nofun
    rcases hi' with hi' | hi'
    · have he := h.entries i hi'
      by_cases hr : lo ≤ i ∧ i < hi
      · refine ⟨i, hi', hr.1, hr.2, ?_, rfl⟩
        intro h0
        rw [h0] at hp
        exact absurd hp nofun
      · rw [if_neg hr] at he
        exact absurd he hgone
    · exact absurd (h.tables i hi') hgone
  · intro hf
    have hbefore : s.supply.free p = true ∨ w.Holds s p := by
      rcases hf with hf | ⟨i, hi, -, -, h0, hp⟩
      · exact .inl hf
      · exact .inr ⟨i, .inl hi, hs.whole i hi h0, hp⟩
    rcases (h.conserves.pages p).2 hbefore with ht | ⟨j, hj, hp, rfl⟩
    · exact ht
    exfalso
    have hjs := hkeep j hj hp
    have hps : present (s.pt j) = true := by
      rw [← hjs]
      exact hp
    rcases hf with hf | ⟨i, hi, h1, h2, h0, he⟩
    · rw [hjs] at hf
      exact absurd (hf.symm.trans (hs.inUse j hj hps).2.2) nofun
    · rw [hjs] at he
      have hij := hs.inj i j (.inl hi) hj (hs.whole i hi h0) hps he
      rw [← hij, h.entries i hi, if_pos ⟨h1, h2⟩] at hp
      exact absurd hp nofun

end Emptied

end Roswell.Ports.PageTables
