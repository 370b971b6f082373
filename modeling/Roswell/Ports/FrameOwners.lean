import Roswell.Ports.Contig
import Roswell.Ports.TitleVmFrames

/-!
# Owner words and page-table entries

`Owners` relates the page tables of the title range to the owner words of the
supply in both directions: the frame of a nonzero entry is owned by that entry,
and a page owned by an entry of the range is the frame of it.  The two
directions fail only for the page a title call has in hand: `placed` is an
entry that holds the `pinned` page before its owner is recorded, and `cleared`
an entry that was zeroed before its page is returned.

The elementary updates of title calls come first, then the one of the
contiguous allocator: relocation moves pages and retargets exactly their
entries, so it keeps both directions as long as the cleared page stays where it
is.
-/

namespace Roswell.Ports.FrameOwners

open Verified.Word PageSupply PageTables TitleVm Function

structure Owners (m : Machine) (pinned placed : Option Nat) (cleared : Option (Nat × Nat)) :
    Prop where
  supply : Inv m.supply
  entry_lt : ∀ i, TitleEntry i → m.pt i < 2 ^ 32
  table : ∀ p, TitlePage p → present (m.pt (0xC0000 + p / 1024)) = false → m.pt p = 0
  directory : ∀ i, 0xC0000 ≤ i → i < 0xC0200 → m.pt i ≠ 0 → present (m.pt i) = true
  referenced : ∀ i, TitleEntry i → m.pt i ≠ 0 →
    OwnedBy m.supply (frame (m.pt i)) i ∨ placed = some i ∧ pinned = some (frame (m.pt i))
  owner : ∀ p i, TitleEntry i → OwnedBy m.supply p i →
    m.pt i ≠ 0 ∧ frame (m.pt i) = p ∨ cleared = some (i, p)

theorem titleEntry_pos {i : Nat} (h : TitleEntry i) : i ≠ 0 := by
  unfold TitleEntry TitlePage at h
  omega

theorem titleEntry_lt {i : Nat} (h : TitleEntry i) : i < 2 ^ 20 := by
  unfold TitleEntry TitlePage at h
  omega

/-- A pinned page has no owner in the range. -/
theorem OwnedBy.not_pinned {s : Supply} {p i : Nat} (h : OwnedBy s p i) (hi : TitleEntry i) :
    ¬s.Pinned p := by
  intro hp
  exact titleEntry_pos hi (h.owner.symm.trans hp.2.2)

/-! ## Owner words under the operations of the supply -/

section

variable {s t : Supply} {p i page : Nat}

/-- Two supplies agree on who owns a page when its word was kept, or was a free
page's before and names no owner after. -/
theorem ownedBy_congr (hhigh : t.highestPfn = s.highestPfn)
    (hused : s.free p = false → t.free p = false ∧ t.links p = s.links p)
    (htaken : s.free p = true → t.free p = false → t.links p = 0) (hi : i ≠ 0) :
    OwnedBy t p i ↔ OwnedBy s p i := by
  constructor
  · intro ho
    have hf : s.free p = false := by
      rw [← Bool.not_eq_true]
      intro hf
      exact hi (ho.owner.symm.trans (htaken hf ho.inUse))
    refine ⟨ho.pos, ?_, hf, ?_⟩
    · rw [← hhigh]
      exact ho.le
    · rw [← (hused hf).2]
      exact ho.owner
  · intro ho
    obtain ⟨hf, hl⟩ := hused ho.inUse
    refine ⟨ho.pos, ?_, hf, ?_⟩
    · rw [hhigh]
      exact ho.le
    · rw [hl]
      exact ho.owner

theorem TookRun.ownedBy_iff {base n : Nat} (h : TookRun s t base n) (hi : i ≠ 0) :
    OwnedBy t p i ↔ OwnedBy s p i := by
  refine ownedBy_congr h.highest (fun hf => ⟨?_, h.links p hf⟩) ?_ hi
  · rw [h.free, hf, Bool.and_false]
  · intro hf ht
    rw [h.free, hf, Bool.and_true, Bool.not_eq_false'] at ht
    exact h.links_run p ht

theorem Returned.ownedBy_iff {base n : Nat} (h : Returned s t base n)
    (hout : inRun base n p = false) (hi : i ≠ 0) : OwnedBy t p i ↔ OwnedBy s p i := by
  have hfree : t.free p = s.free p := by rw [h.free, hout, Bool.false_or]
  refine ownedBy_congr h.highest (fun hf => ⟨hfree.trans hf, h.links p hf hout⟩) ?_ hi
  intro hf ht
  rw [hfree, hf] at ht
  contradiction

/-- An operation that relocates nothing changes the owner only of the page it
writes by name. -/
theorem apply_ownedBy_iff (h : Inv s) {op : Op} (hadm : op.Admissible s)
    (hplain : ∀ n lo hi align, op ≠ .takeRunRelocate n lo hi align) (hw : ¬op.Writes p)
    (hi : i ≠ 0) : OwnedBy (op.apply s) p i ↔ OwnedBy s p i := by
  rcases h.apply_cases op with ⟨page, rfl⟩ | ⟨page, pteVa, rfl⟩ | hsame | ⟨base, n, htook⟩ |
    ⟨_, _, _, _, _, _, _, hop, -⟩
  · have hne : p ≠ page := fun e => hw e.symm
    have h0 : page ≠ 0 := by
      have := hadm.1
      omega
    have hfree := h.return_free h0 hadm.2.1 hadm.2.2 p
    rw [decide_eq_false hne, Bool.false_or] at hfree
    refine ownedBy_congr (Inv.return_highestPfn s page)
      (fun hf => ⟨hfree.trans hf, h.return_links h0 hadm.2.2 hf hne⟩) ?_ hi
    intro hf ht
    rw [Op.apply, hfree, hf] at ht
    contradiction
  · have hne : p ≠ page := fun e => hw e.symm
    rw [Op.apply, Supply.nxkPageSupplySetOwner]
    split
    · have hl : (s.setEntry page (if pteVa ≠ 0 then ownerIndex pteVa else 0)).links p =
          s.links p := by
        rw [Supply.setEntry_links, update_of_ne hne]
      refine ownedBy_congr rfl (fun hf => ⟨?_, hl⟩) ?_ hi
      · rw [Supply.free, hl]
        exact hf
      · intro hf ht
        rw [Supply.free, hl] at ht
        exact absurd (hf.symm.trans ht) (by decide)
    · rfl
  · rw [hsame]
  · exact TookRun.ownedBy_iff htook hi
  · exact absurd hop (hplain _ _ _ _)

end

namespace Owners

variable {m : Machine} {pinned placed : Option Nat} {cleared : Option (Nat × Nat)}

/-- The supply changes and no owner word of the range with it. -/
theorem setSupply (h : Owners m pinned placed cleared) {supply : Supply} (hinv : Inv supply)
    (hown : ∀ p i, TitleEntry i → (OwnedBy supply p i ↔ OwnedBy m.supply p i)) :
    Owners { m with supply := supply } pinned placed cleared := by
  refine ⟨hinv, h.entry_lt, h.table, h.directory, ?_, ?_⟩
  · intro i hi hne
    rcases h.referenced i hi hne with hleft | hright
    · exact .inl ((hown _ i hi).2 hleft)
    · exact .inr hright
  · intro p i hi ho
    exact h.owner p i hi ((hown p i hi).1 ho)

/-- Taking a page for a call. -/
theorem take (h : Owners m none none none) {supply : Supply} {pfn : Nat}
    (htook : Took m.supply supply pfn) :
    Owners { m with supply := supply } (some pfn) none none := by
  have hnew := h.setSupply htook.inv fun _ _ hi => TookRun.ownedBy_iff htook.run (titleEntry_pos hi)
  refine { hnew with referenced := ?_ }
  intro i hi hne
  rcases hnew.referenced i hi hne with hleft | ⟨hright, -⟩
  · exact .inl hleft
  · contradiction

/-- One entry of the range changes and the supply does not. -/
theorem setEntry {pinned' placed' : Option Nat} {cleared' : Option (Nat × Nat)}
    (h : Owners m pinned placed cleared) {i e : Nat} (hi : TitlePage i) (hlt : e < 2 ^ 32)
    (htab : e ≠ 0 → present (m.pt (0xC0000 + i / 1024)) = true)
    (href : e ≠ 0 → OwnedBy m.supply (frame e) i ∨ placed' = some i ∧ pinned' = some (frame e))
    (hown : ∀ p, OwnedBy m.supply p i → e ≠ 0 ∧ frame e = p ∨ cleared' = some (i, p))
    (hplaced : ∀ j, placed = some j → j = i) (hcleared : ∀ j p, cleared = some (j, p) → j = i) :
    Owners (m.setEntry i e) pinned' placed' cleared' := by
  have hself : (m.setEntry i e).pt i = e := update_self ..
  have hother : ∀ j, j ≠ i → (m.setEntry i e).pt j = m.pt j := fun j hj =>
    update_of_ne hj ..
  have hdir : ∀ j, 0xC0000 ≤ j → (m.setEntry i e).pt j = m.pt j := by
    intro j hj
    refine hother j ?_
    omega
  refine ⟨h.supply, ?_, ?_, ?_, ?_, ?_⟩
  · intro j hj
    by_cases hji : j = i
    · rw [hji, hself]
      exact hlt
    · rw [hother j hji]
      exact h.entry_lt j hj
  · intro p hp habs
    rw [hdir _ (by omega)] at habs
    by_cases hpi : p = i
    · subst hpi
      rw [hself]
      by_contra hne
      rw [htab hne] at habs
      contradiction
    · rw [hother p hpi]
      exact h.table p hp habs
  · intro j h1 h2 hne
    rw [hdir j h1] at hne ⊢
    exact h.directory j h1 h2 hne
  · intro j hj hne
    by_cases hji : j = i
    · subst hji
      rw [hself] at hne ⊢
      exact href hne
    · rw [hother j hji] at hne ⊢
      rcases h.referenced j hj hne with hleft | ⟨hright, -⟩
      · exact .inl hleft
      · exact absurd (hplaced j hright) hji
  · intro p j hj ho
    by_cases hji : j = i
    · subst hji
      rw [hself]
      exact hown p ho
    · rw [hother j hji]
      rcases h.owner p j hj ho with hleft | hright
      · exact .inl hleft
      · exact absurd (hcleared j p hright) hji

/-- Writing the entry of a page just taken. -/
theorem place {pfn i bits : Nat} (h : Owners m (some pfn) none none) (hi : TitlePage i)
    (h0 : m.pt i = 0) (htab : present (m.pt (0xC0000 + i / 1024)) = true)
    (hpfn : pfn < 2 ^ 20) (hbits : bits < 2 ^ 12) :
    Owners (m.setEntry i (mkEntry pfn bits)) (some pfn) (some i) none := by
  refine h.setEntry hi (mkEntry_lt hpfn hbits) (fun _ => htab) ?_ ?_ ?_ ?_
  · intro _
    rw [frame_mkEntry pfn hbits]
    exact .inr ⟨rfl, rfl⟩
  · intro p ho
    rcases h.owner p i (.inl hi) ho with ⟨hne, -⟩ | hc
    · exact absurd h0 hne
    · contradiction
  · intro j hj
    contradiction
  · intro j p hj
    contradiction

/-- Writing the page directory entry of a zero-filled table just taken.  Its
span had no entries before, so only the directory entry changes. -/
theorem placeTable {pfn p : Nat} (h : Owners m (some pfn) none none) (hp : TitlePage p)
    (h0 : m.pt (0xC0000 + p / 1024) = 0) (hpfn : pfn < 2 ^ 20) {pt : Nat → Nat}
    (hpt : pt = update (fun i => if i / 1024 = p / 1024 then 0 else m.pt i)
      (0xC0000 + p / 1024) (mkEntry pfn (nxvPteP ||| nxvPteRw))) :
    Owners { m with pt := pt } (some pfn) (some (0xC0000 + p / 1024)) none ∧
      ∀ i, TitleEntry i → i ≠ 0xC0000 + p / 1024 → pt i = m.pt i := by
  have habsent : present (m.pt (0xC0000 + p / 1024)) = false := by
    rw [h0]
    rfl
  have hself : pt (0xC0000 + p / 1024) = mkEntry pfn (nxvPteP ||| nxvPteRw) := by
    rw [hpt, update_self]
  have hsame : ∀ i, TitleEntry i → i ≠ 0xC0000 + p / 1024 → pt i = m.pt i := by
    intro i hi hid
    rw [hpt, update_of_ne hid]
    by_cases hin : i / 1024 = p / 1024
    · have hpage : TitlePage i := hi.resolve_right (by omega)
      rw [if_pos hin]
      exact (h.table i hpage (by rw [hin]; exact habsent)).symm
    · rw [if_neg hin]
  have hdir : ∀ q, TitlePage q → TitleEntry (0xC0000 + q / 1024) := by
    intro q hq
    exact .inr (by omega)
  have howners : Owners ⟨pt, m.supply⟩ (some pfn) (some (0xC0000 + p / 1024)) none := by
    refine ⟨h.supply, ?_, ?_, ?_, ?_, ?_⟩ <;> simp only
    · intro i hi
      by_cases hid : i = 0xC0000 + p / 1024
      · rw [hid, hself]
        exact mkEntry_lt hpfn (by decide)
      · rw [hsame i hi hid]
        exact h.entry_lt i hi
    · intro q hq habs
      have hqd : q ≠ 0xC0000 + p / 1024 := by
        omega
      rw [hsame q (.inl hq) hqd]
      by_cases hqp : 0xC0000 + q / 1024 = 0xC0000 + p / 1024
      · rw [hqp, hself, present_table] at habs
        contradiction
      · rw [hsame _ (hdir q hq) hqp] at habs
        exact h.table q hq habs
    · intro i h1 h2 hne
      by_cases hid : i = 0xC0000 + p / 1024
      · rw [hid, hself]
        exact present_table pfn
      · rw [hsame i (.inr ⟨h1, h2⟩) hid] at hne ⊢
        exact h.directory i h1 h2 hne
    · intro i hi hne
      by_cases hid : i = 0xC0000 + p / 1024
      · right
        rw [hid, hself, frame_mkEntry pfn (by decide)]
        exact ⟨rfl, rfl⟩
      · rw [hsame i hi hid] at hne ⊢
        rcases h.referenced i hi hne with hleft | ⟨hright, -⟩
        · exact .inl hleft
        · contradiction
    · intro q i hi ho
      rcases h.owner q i hi ho with ⟨hne, hfr⟩ | hc
      · have hid : i ≠ 0xC0000 + p / 1024 := by
          rintro rfl
          exact hne h0
        rw [hsame i hi hid]
        exact .inl ⟨hne, hfr⟩
      · contradiction
  exact ⟨howners, hsame⟩

/-- Recording the owner of the page just placed. -/
theorem own {pfn i : Nat} (h : Owners m (some pfn) (some i) none) (hi : TitleEntry i)
    (hpin : m.supply.Pinned pfn) (hne : m.pt i ≠ 0) (hfr : frame (m.pt i) = pfn) :
    m.supply.nxkPageSupplySetOwner pfn (ownerPteVa i) = m.supply.setEntry pfn i ∧
      Owners { m with supply := m.supply.setEntry pfn i } none none none := by
  have hword : i < 2 ^ 30 := Nat.lt_trans (titleEntry_lt hi) (by decide)
  have hpos := Nat.pos_of_ne_zero hpin.1
  have hself : OwnedBy (m.supply.setEntry pfn i) pfn i := by
    refine ⟨hpos, hpin.2.1, ?_, ?_⟩
    · rw [Supply.free, Supply.setEntry_links, update_self]
      exact entryFree_of_lt hword
    · rw [Supply.setEntry_links, update_self]
  refine ⟨setOwner_entry hpos hpin.2.1 hpin.not_free (titleEntry_lt hi), ?_⟩
  refine ⟨h.supply.setEntry hpin.not_free hword, h.entry_lt, h.table, h.directory, ?_, ?_⟩
  · intro j hj hjne
    left
    rcases h.referenced j hj hjne with hleft | ⟨hright, -⟩
    · refine hleft.setEntry ?_ i
      intro e
      exact OwnedBy.not_pinned hleft hj (e ▸ hpin)
    · cases hright
      rw [hfr]
      exact hself
  · intro p j hj ho
    left
    by_cases hpp : p = pfn
    · have hji : j = i := by
        rw [← ho.owner, hpp]
        exact hself.owner
      rw [hji, hpp]
      exact ⟨hne, hfr⟩
    · have hold : OwnedBy m.supply p j := by
        have hu := ho.inUse
        have hl := ho.owner
        rw [Supply.free, Supply.setEntry_links, update_of_ne hpp] at hu
        rw [Supply.setEntry_links, update_of_ne hpp] at hl
        exact ⟨ho.pos, ho.le, hu, hl⟩
      rcases h.owner p j hj hold with hleft | hright
      · exact hleft
      · contradiction

/-- Rewriting the low bits of an entry. -/
theorem rewrite {i e : Nat} (h : Owners m none none none) (hi : TitlePage i) (hne : m.pt i ≠ 0)
    (hfr : frame e = frame (m.pt i)) (hlt : e < 2 ^ 32) :
    Owners (m.setEntry i e) none none none ∧ e ≠ 0 := by
  have hown : OwnedBy m.supply (frame (m.pt i)) i := by
    rcases h.referenced i (.inl hi) hne with hleft | ⟨hright, -⟩
    · exact hleft
    · contradiction
  have he0 : e ≠ 0 := ne_zero_of_frame (by rw [hfr]; exact hown.pos.ne')
  refine ⟨h.setEntry hi hlt ?_ ?_ ?_ ?_ ?_, he0⟩
  · intro _
    rw [← Bool.not_eq_false]
    exact fun habs => hne (h.table i hi habs)
  · intro _
    rw [hfr]
    exact .inl hown
  · intro p ho
    rcases h.owner p i (.inl hi) ho with ⟨-, hp⟩ | hc
    · exact .inl ⟨he0, hfr.trans hp⟩
    · contradiction
  · intro j hj
    contradiction
  · intro j p hj
    contradiction

/-- Clearing an entry whose page will be returned. -/
theorem clear {i : Nat} (h : Owners m none none none) (hi : TitlePage i) (hne : m.pt i ≠ 0) :
    Owners (m.setEntry i 0) none none (some (i, frame (m.pt i))) ∧
      OwnedBy m.supply (frame (m.pt i)) i := by
  have hown : OwnedBy m.supply (frame (m.pt i)) i := by
    rcases h.referenced i (.inl hi) hne with hleft | ⟨hright, -⟩
    · exact hleft
    · contradiction
  refine ⟨h.setEntry hi (by decide) ?_ ?_ ?_ ?_ ?_, hown⟩
  · exact absurd rfl
  · exact absurd rfl
  · intro p ho
    rcases h.owner p i (.inl hi) ho with ⟨-, hp⟩ | hc
    · rw [hp]
      exact .inr rfl
    · contradiction
  · intro j hj
    contradiction
  · intro j p hj
    contradiction

/-- Returning the page of a cleared entry. -/
theorem release {i pfn : Nat} (h : Owners m none none (some (i, pfn))) (h0 : m.pt i = 0)
    (hown : OwnedBy m.supply pfn i) :
    Owners { m with supply := (m.supply.nxkPageSupplySetOwner pfn 0).nxkPageSupplyReturn pfn }
        none none none ∧
      (∀ p, p ≠ pfn → m.supply.Pinned p →
        ((m.supply.nxkPageSupplySetOwner pfn 0).nxkPageSupplyReturn pfn).Pinned p) := by
  generalize hc : m.supply.setEntry pfn 0 = c
  have hlinks : ∀ q, q ≠ pfn → c.links q = m.supply.links q := by
    intro q hq
    rw [← hc, Supply.setEntry_links, update_of_ne hq]
  have hcfree : c.free pfn = false := by
    rw [← hc, Supply.free, Supply.setEntry_links, update_self]
    rfl
  have hcinv : Inv c := by
    rw [← hc]
    exact h.supply.setEntry hown.inUse (by decide)
  have hhigh : c.highestPfn = m.supply.highestPfn := by
    rw [← hc]
    rfl
  have hle : pfn ≤ c.highestPfn := by
    rw [hhigh]
    exact hown.le
  have hpos := hown.pos.ne'
  rw [setOwner_none hown.pos hown.le hown.inUse, hc]
  refine ⟨⟨hcinv.giveBack hpos hle hcfree, h.entry_lt, h.table, h.directory, ?_, ?_⟩, ?_⟩
  · intro j hj hjne
    left
    rcases h.referenced j hj hjne with hleft | ⟨hright, -⟩
    · have hne : frame (m.pt j) ≠ pfn := by
        intro e
        rw [e] at hleft
        rw [hleft.owner.symm.trans hown.owner] at hjne
        exact hjne h0
      have hmid := hleft.setEntry hne 0
      rw [hc] at hmid
      exact hmid.giveBack hcinv hown.pos hle hcfree hne
    · contradiction
  · intro p j hj ho
    left
    have hu := ho.inUse
    rw [hcinv.return_free hpos hle hcfree, Bool.or_eq_false_iff, decide_eq_false_iff_not] at hu
    have hold : OwnedBy m.supply p j := by
      have hl := ho.owner
      have hhigh' := ho.le
      rw [hcinv.return_links hpos hcfree hu.2 hu.1, hlinks p hu.1] at hl
      rw [Inv.return_highestPfn, hhigh] at hhigh'
      refine ⟨ho.pos, hhigh', ?_, hl⟩
      rw [Supply.free, ← hlinks p hu.1]
      exact hu.2
    rcases h.owner p j hj hold with hleft | hright
    · exact hleft
    · cases hright
      exact absurd rfl hu.1
  · intro p hne hp
    have hcp : c.Pinned p := by
      refine ⟨hp.1, ?_, ?_⟩
      · rw [hhigh]
        exact hp.2.1
      · rw [hlinks p hne]
        exact hp.2.2
    exact hcinv.return_pinned hpos hcfree hcp hne

end Owners

/-! ## Relocation -/

/-- The entry of an owner that no move names is not written. -/
theorem retarget_other {moves : List Supply.Move} {i : Nat}
    (h : ∀ mv ∈ moves, mv.owner ≠ i) (pt : Nat → Nat) :
    moves.foldl Machine.retarget pt i = pt i := by
  induction moves generalizing pt with
  | nil => rfl
  | cons mv moves ih =>
    have hi : i ≠ mv.owner := (h mv List.mem_cons_self).symm
    rw [List.foldl_cons, ih (fun m hm => h m (List.mem_cons_of_mem mv hm))]
    exact update_of_ne hi ..

/-- The entry of an owner that one move names is retargeted by it. -/
theorem retarget_self {moves : List Supply.Move} {mv : Supply.Move} (hmem : mv ∈ moves)
    (hnodup : moves.Nodup) (huniq : ∀ m ∈ moves, m.owner = mv.owner → m = mv)
    (pt : Nat → Nat) :
    moves.foldl Machine.retarget pt mv.owner = mkEntry mv.dest (pt mv.owner &&& 0xFFF) := by
  induction moves generalizing pt with
  | nil => contradiction
  | cons m moves ih =>
    obtain ⟨hnot, hnodup⟩ := List.nodup_cons.1 hnodup
    rw [List.foldl_cons]
    by_cases hm : m = mv
    · subst hm
      rw [retarget_other]
      · exact update_self ..
      · intro m' hm' he
        exact hnot (huniq m' (List.mem_cons_of_mem m hm') he ▸ hm')
    · have hne : mv.owner ≠ m.owner := fun e => hm (huniq m List.mem_cons_self e.symm)
      have hpt : Machine.retarget pt m mv.owner = pt mv.owner := update_of_ne hne ..
      rw [ih ((List.mem_cons.1 hmem).resolve_left (fun e => hm e.symm)) hnodup
        (fun m' hm' => huniq m' (List.mem_cons_of_mem m hm')), hpt]

/-- What relocation does to the entries of the range: they keep their low bits,
and those whose frame was not `moved` do not change. -/
structure Retargeted (pt pt' : Nat → Nat) (moved : Nat → Prop) : Prop where
  zero_iff : ∀ i, TitleEntry i → (pt' i = 0 ↔ pt i = 0)
  present_eq : ∀ i, TitleEntry i → present (pt' i) = present (pt i)
  still : ∀ i, TitleEntry i → ¬moved (frame (pt i)) → pt' i = pt i

theorem present_retarget (dest entry : Nat) :
    present (mkEntry dest (entry &&& 0xFFF)) = present entry := by
  unfold present mkEntry
  rw [or_shiftLeft_eq (Nat.and_lt_two_pow _ (by decide)), Nat.and_one_is_mod,
    Nat.and_one_is_mod, show (0xFFF : Nat) = 2 ^ 12 - 1 from rfl, Nat.and_two_pow_sub_one_eq_mod]
  congr 1
  omega

namespace Owners

variable {m : Machine} {pinned placed : Option Nat} {cleared : Option (Nat × Nat)}

/-- Relocation keeps the invariant when the cleared page, if there is one, is
outside the run. -/
theorem relocate (h : Owners m pinned placed cleared) {supply : Supply}
    {low high lo hi : Nat} {moves : List Supply.Move}
    (hrel : Relocated m.supply supply low high lo hi moves) (hlo : 0 < lo)
    (hhi : hi ≤ m.supply.highestPfn + 1)
    (hcl : ∀ i p, cleared = some (i, p) → ¬(lo ≤ p ∧ p < hi)) :
    Owners ⟨moves.foldl Machine.retarget m.pt, supply⟩ pinned placed cleared ∧
      Retargeted m.pt (moves.foldl Machine.retarget m.pt) (fun p => lo ≤ p ∧ p < hi) := by
  obtain ⟨pt, hpt⟩ : ∃ pt, moves.foldl Machine.retarget m.pt = pt := ⟨_, rfl⟩
  have hnodup : moves.Nodup := List.Nodup.of_map _ hrel.page_nodup
  have hsrc : ∀ mv ∈ moves, OwnedBy m.supply mv.page mv.owner := by
    intro mv hmv
    obtain ⟨h1, h2, hf, ho⟩ := hrel.source mv hmv
    exact ⟨by omega, by omega, hf, ho.symm⟩
  -- a move out of the range's entries takes the frame of the entry
  have hfrom : ∀ mv ∈ moves, TitleEntry mv.owner →
      m.pt mv.owner ≠ 0 ∧ frame (m.pt mv.owner) = mv.page := by
    intro mv hmv hi'
    rcases h.owner mv.page mv.owner hi' (hsrc mv hmv) with hleft | hright
    · exact hleft
    · obtain ⟨h1, h2, -, -⟩ := hrel.source mv hmv
      exact absurd ⟨h1, h2⟩ (hcl _ _ hright)
  have huniq : ∀ mv ∈ moves, TitleEntry mv.owner → ∀ mv' ∈ moves, mv'.owner = mv.owner →
      mv' = mv := by
    intro mv hmv hi' mv' hmv' he
    have h1 := (hfrom mv hmv hi').2
    have h2 := (hfrom mv' hmv' (he ▸ hi')).2
    rw [he, h1] at h2
    exact List.inj_on_of_nodup_map hrel.page_nodup hmv' hmv h2.symm
  have hself : ∀ mv ∈ moves, TitleEntry mv.owner →
      pt mv.owner = mkEntry mv.dest (m.pt mv.owner &&& 0xFFF) := by
    intro mv hmv hi'
    rw [← hpt]
    exact retarget_self hmv hnodup (huniq mv hmv hi') m.pt
  have hother : ∀ i, (∀ mv ∈ moves, mv.owner ≠ i) → pt i = m.pt i := by
    intro i hi'
    rw [← hpt]
    exact retarget_other hi' m.pt
  have hdest : ∀ mv ∈ moves, OwnedBy supply mv.dest mv.owner := by
    intro mv hmv
    obtain ⟨hf, -, hl⟩ := hrel.dest mv hmv
    refine ⟨Nat.pos_of_ne_zero (h.supply.free_pos hf), ?_, ?_, hl⟩
    · rw [hrel.highest]
      exact h.supply.free_le hf
    · rw [← Bool.not_eq_true, hrel.free_iff]
      rintro ⟨-, -, hd⟩
      exact hd (List.mem_map_of_mem hmv)
  have hframe : ∀ mv ∈ moves, TitleEntry mv.owner → frame (pt mv.owner) = mv.dest := by
    intro mv hmv hi'
    rw [hself mv hmv hi']
    exact frame_mkEntry _ (Nat.and_lt_two_pow _ (by decide))
  have hne : ∀ mv ∈ moves, TitleEntry mv.owner → pt mv.owner ≠ 0 := by
    intro mv hmv hi'
    refine ne_zero_of_frame ?_
    rw [hframe mv hmv hi']
    exact (hdest mv hmv).pos.ne'
  have hret : Retargeted m.pt pt (fun p => lo ≤ p ∧ p < hi) := by
    refine ⟨?_, ?_, ?_⟩
    · intro i hi'
      by_cases hmv : ∃ mv ∈ moves, mv.owner = i
      · obtain ⟨mv, hmv, rfl⟩ := hmv
        exact iff_of_false (hne mv hmv hi') (hfrom mv hmv hi').1
      · rw [hother i (fun mv hm e => hmv ⟨mv, hm, e⟩)]
    · intro i hi'
      by_cases hmv : ∃ mv ∈ moves, mv.owner = i
      · obtain ⟨mv, hmv, rfl⟩ := hmv
        rw [hself mv hmv hi', present_retarget]
      · rw [hother i (fun mv hm e => hmv ⟨mv, hm, e⟩)]
    · intro i hi' hstill
      refine hother i ?_
      rintro mv hm rfl
      obtain ⟨h1, h2, -, -⟩ := hrel.source mv hm
      rw [(hfrom mv hm hi').2] at hstill
      exact hstill ⟨h1, h2⟩
  have hdir : ∀ q, TitlePage q → TitleEntry (0xC0000 + q / 1024) := by
    intro q hq
    exact .inr (by omega)
  rw [hpt]
  refine ⟨⟨hrel.inv, ?_, ?_, ?_, ?_, ?_⟩, hret⟩ <;> simp only
  · intro i hi'
    by_cases hmv : ∃ mv ∈ moves, mv.owner = i
    · obtain ⟨mv, hmv, rfl⟩ := hmv
      have hle := (hdest mv hmv).le
      have hmax := hrel.inv.highest_lt
      rw [hself mv hmv hi']
      exact mkEntry_lt (by omega) (Nat.and_lt_two_pow _ (by decide))
    · rw [hother i (fun mv hm e => hmv ⟨mv, hm, e⟩)]
      exact h.entry_lt i hi'
  · intro p hp habs
    rw [hret.present_eq _ (hdir p hp)] at habs
    exact (hret.zero_iff p (.inl hp)).2 (h.table p hp habs)
  · intro i h1 h2 hi0
    rw [hret.present_eq i (.inr ⟨h1, h2⟩)]
    exact h.directory i h1 h2 (fun e => hi0 ((hret.zero_iff i (.inr ⟨h1, h2⟩)).2 e))
  · intro i hi' hi0
    by_cases hmv : ∃ mv ∈ moves, mv.owner = i
    · obtain ⟨mv, hmv, rfl⟩ := hmv
      left
      rw [hframe mv hmv hi']
      exact hdest mv hmv
    have hnone : ∀ mv ∈ moves, mv.owner ≠ i := fun mv hm e => hmv ⟨mv, hm, e⟩
    rw [hother i hnone] at hi0 ⊢
    rcases h.referenced i hi' hi0 with hleft | hright
    · left
      have hout : ¬(lo ≤ frame (m.pt i) ∧ frame (m.pt i) < hi) := by
        rintro ⟨h1, h2⟩
        obtain ⟨mv, hm, he⟩ := hrel.moved _ h1 h2 hleft.inUse
        have hown := (hrel.source mv hm).2.2.2
        rw [he, hleft.owner] at hown
        exact hnone mv hm hown
      have hinv := hrel.frame _ hleft.inUse hout
      refine ⟨hleft.pos, ?_, ?_, ?_⟩
      · rw [hrel.highest]
        exact hleft.le
      · rw [Supply.free, hinv]
        exact hleft.inUse
      · rw [hinv]
        exact hleft.owner
    · exact .inr hright
  · intro p i hi' ho
    by_cases hd : p ∈ moves.map Supply.Move.dest
    · obtain ⟨mv, hm, rfl⟩ := List.mem_map.1 hd
      have he : mv.owner = i := (hdest mv hm).owner.symm.trans ho.owner
      subst he
      exact .inl ⟨hne mv hm hi', hframe mv hm hi'⟩
    have hout : ¬(lo ≤ p ∧ p < hi) := by
      rintro ⟨h1, h2⟩
      exact titleEntry_pos hi' (ho.owner.symm.trans (hrel.run_links p h1 h2))
    have hf : m.supply.free p = false := by
      rw [← Bool.not_eq_true]
      intro hf
      have hfree := (hrel.free_iff p).2 ⟨hf, hout, hd⟩
      rw [ho.inUse] at hfree
      contradiction
    have hold : OwnedBy m.supply p i := by
      refine ⟨ho.pos, ?_, hf, ?_⟩
      · rw [← hrel.highest]
        exact ho.le
      · rw [← hrel.frame p hf hout]
        exact ho.owner
    rcases h.owner p i hi' hold with ⟨h1, h2⟩ | hright
    · left
      rw [hret.still i hi' (by rw [h2]; exact hout)]
      exact ⟨h1, h2⟩
    · exact .inr hright

end Owners

end Roswell.Ports.FrameOwners
