import Roswell.Ports.BucketPoolArena

/-!
# The sections under the lock

Taking a block off its list and putting it back move one block between list and
holders.  Carving a page turns an owned run into blocks, all but the first of them
listed; taking a page back unlinks its blocks and makes it an owned run again.
-/

namespace Roswell.Ports.BucketPool

open Verified.Bytes Verified.SingleLink Verified.Extents Verified.Runs Function BucketPool.Core
open PageTables (pageSize)
open PoolPages (nxppBase nxppPages pageVa)

variable {k k' : Core} {lists : Nat → List Nat} {held held' : List Nat} {owned : List Extent}
  {idx cls blk : Nat}

/-- Lists that have the elements of a kind equally often have equally many of them. -/
theorem countP_eq_of_count {p : Nat → Bool} {l l' : List Nat}
    (h : ∀ e, p e = true → l'.count e = l.count e) : l'.countP p = l.countP p := by
  rw [List.countP_eq_length_filter, List.countP_eq_length_filter]
  refine List.Perm.length_eq (List.perm_iff_count.2 ?_)
  intro e
  by_cases he : p e = true
  · rw [List.count_filter he, List.count_filter he, h e he]
  · rw [List.count_eq_zero.2 fun hmem => he (List.mem_filter.1 hmem).2,
      List.count_eq_zero.2 fun hmem => he (List.mem_filter.1 hmem).2]

namespace Arena

/-- One block moves between its list and the holders; the state of its page follows. -/
theorem move (h : Arena k lists held owned) (hslot : k.IsSlot blk) {m : Memory}
    {heads : Nat → Nat} {x : Nat} (hk' : k' = { k with
      mem := m
      freeLists := heads
      pageState := update k.pageState (nxpPageIndex blk) x }) (l : List Nat)
    (hsum : ∀ e, l.count e + held'.count e =
      (lists (k.pageClass (nxpPageIndex blk))).count e + held.count e)
    (hother : ∀ e, e ≠ blk → held'.count e = held.count e)
    (hx : x = held'.countP fun e => InPage (nxpPageIndex blk) e)
    (hlinked : ∀ {cls}, cls < nxpClasses → Linked (next m) (heads cls)
      (update lists (k.pageClass (nxpPageIndex blk)) l cls))
    (hheader : ∀ {cls e}, cls < nxpClasses →
      e ∈ update lists (k.pageClass (nxpPageIndex blk)) l cls → classField m e = cls) :
    Arena k' (update lists (k.pageClass (nxpPageIndex blk)) l) held' owned := by
  obtain ⟨hb, hcls, hpage, -⟩ := hslot.page
  have hbound : x ≤ 128 := by
    rw [hx]
    refine h.count_le hb fun e he => ?_
    have := hsum e
    have := h.split hb he
    omega
  have hbucket : ∀ i, k'.Bucket i ↔ k.Bucket i := by
    intro i
    unfold Core.Bucket nxpNotBucket
    rw [hk']
    dsimp only
    by_cases hi : i = nxpPageIndex blk
    · have hstate := h.state_le hb
      rw [hi, update_self]
      omega
    · rw [update_of_ne hi]
  have hlisted : ∀ e, e ≠ blk →
      l.count e = (lists (k.pageClass (nxpPageIndex blk))).count e := by
    intro e he
    have := hsum e
    have := hother e he
    omega
  have hplaced : ∀ {c e}, c < nxpClasses → e ∈ lists c →
      ∃ i, InPage i e ∧ k'.Bucket i ∧ k.pageClass i = c := by
    intro c e hc he
    obtain ⟨i, hi, hbi, hci⟩ := h.placed hc he
    exact ⟨i, hi, (hbucket i).2 hbi, hci⟩
  subst hk'
  refine ⟨h.window, ?_, ?_, hlinked, ?_, ?_, ?_, ?_, hheader⟩
  · intro r
    rw [h.runs r]
    unfold bucketRuns
    rw [if_congr (and_congr_right fun _ => hbucket r.start) rfl rfl]
  · intro i hi
    exact h.marked ((hbucket i).1 hi)
  · intro c e hc he
    rcases of_update he with ⟨rfl, hin⟩ | ⟨-, hin⟩
    · by_cases hblk : e = blk
      · subst hblk
        exact ⟨_, hpage, (hbucket _).2 hb, rfl⟩
      · have hpos := List.count_pos_iff.2 hin
        rw [hlisted e hblk] at hpos
        exact hplaced hc (List.count_pos_iff.1 hpos)
    · exact hplaced hc hin
  · intro e he
    by_cases hblk : e = blk
    · subst hblk
      exact ⟨_, hpage, (hbucket _).2 hb⟩
    · have hpos := List.count_pos_iff.2 he
      rw [hother e hblk] at hpos
      obtain ⟨i, hi, hbi⟩ := h.holds (List.count_pos_iff.1 hpos)
      exact ⟨i, hi, (hbucket i).2 hbi⟩
  · intro i e hi he
    have hsplit := h.split ((hbucket i).1 hi) he
    by_cases heq : k.pageClass i = k.pageClass (nxpPageIndex blk)
    · have := hsum e
      rw [heq, update_self]
      rw [heq] at hsplit
      omega
    · have hne : e ≠ blk := by
        rintro rfl
        exact heq (congrArg k.pageClass (inPage_unique he hpage))
      rw [update_of_ne heq, hother e hne]
      exact hsplit
  · intro i hi
    dsimp only
    by_cases heq : i = nxpPageIndex blk
    · rw [heq, update_self]
      exact hx
    · rw [update_of_ne heq, h.count ((hbucket i).1 hi)]
      refine (countP_eq_of_count fun e he => hother e ?_).symm
      rintro rfl
      exact heq (inPage_unique (of_decide_eq_true he) hpage)

theorem head_lt (h : Arena k lists held owned) (hcls : cls < nxpClasses) :
    k.freeLists cls < 2 ^ 32 := by
  by_cases hzero : k.freeLists cls = 0
  · rw [hzero]
    decide
  · obtain ⟨rest, hlist, -⟩ := (h.linked hcls).eq_cons hzero
    exact h.slot_lt (h.listed hcls (by rw [hlist]; exact List.mem_cons_self)).1

/-- `popBlock` takes the first block of the list. -/
theorem pop (h : Arena k lists held owned) (hcls : cls < nxpClasses) :
    k.popBlock cls = none ∨
      ∃ k' blk lists', k.popBlock cls = some (k', blk) ∧ k.pageClass (nxpPageIndex blk) = cls ∧
        k'.mem = k.mem ∧ k'.pageClass = k.pageClass ∧ Arena k' lists' (blk :: held) owned := by
  by_cases hzero : k.freeLists cls = 0
  · exact Or.inl (if_pos hzero)
  obtain ⟨rest, hlist, hrest⟩ := (h.linked hcls).eq_cons hzero
  obtain ⟨blk, hblk⟩ : ∃ b, k.freeLists cls = b := ⟨_, rfl⟩
  rw [hblk] at hlist hrest hzero
  obtain ⟨hslot, hclass, -, -⟩ := h.listed hcls (by rw [hlist]; exact List.mem_cons_self)
  obtain ⟨hb, -, hpage, -⟩ := hslot.page
  have hstate := h.count hb
  have hbound := h.state_le hb
  have hpop : k.popBlock cls = some
      ({ k with
        freeLists := update k.freeLists cls (next k.mem blk)
        pageState := update k.pageState (nxpPageIndex blk)
          ((k.pageState (nxpPageIndex blk) + 1) % 256) }, blk) := by
    unfold popBlock
    rw [hblk, if_neg hzero]
    rfl
  refine Or.inr ⟨_, blk, _, hpop, hclass, rfl, rfl, h.move hslot rfl rest ?_ ?_ ?_ ?_ ?_⟩
  · intro e
    rw [hclass, hlist, List.count_cons, List.count_cons]
    omega
  · intro e he
    exact List.count_cons_of_ne he.symm
  · rw [List.countP_cons_of_pos (by simpa using hpage), ← hstate]
    omega
  · intro c hc
    rw [hclass]
    by_cases heq : c = cls
    · subst heq
      rw [update_self, update_self]
      exact hrest
    · rw [update_of_ne heq, update_of_ne heq]
      exact h.linked hc
  · intro c e hc he
    rw [hclass] at he
    refine h.header hc ?_
    rcases of_update he with ⟨rfl, hin⟩ | ⟨-, hin⟩
    · rw [hlist]
      exact List.mem_cons_of_mem _ hin
    · exact hin

/-- `pushBlock` puts a held block in front of the list its header names. -/
theorem push {p : Nat} (h : Arena k lists (p :: held) owned)
    (hclass : classField k.mem p = k.pageClass (nxpPageIndex p)) :
    ∃ lists', Arena (k.pushBlock p) lists' held owned ∧
      (k.pushBlock p).pageClass = k.pageClass ∧ Frame k (k.pushBlock p) held := by
  obtain ⟨hslot, honce, hfree⟩ := h.held_slot List.mem_cons_self
  obtain ⟨hb, hcls, hpage, -⟩ := hslot.page
  have hge := hslot.ge
  have hstate := h.count hb
  have hbound := h.state_le hb
  have hsize := hslot.size
  rw [List.countP_cons_of_pos (by simpa using hpage)] at hstate
  generalize hm : store k.mem p 4 (k.freeLists (k.pageClass (nxpPageIndex p))) = m
  -- only the link of the block itself is written
  have hkeep : ∀ e, k.IsSlot e → e ≠ p → Keeps k.mem m (e - 8) 12 := by
    intro e he hne
    have hapart := he.apart hslot hne
    have hesize := he.size
    rw [← hm]
    exact store_keeps _ (by omega)
  have hown : Keeps k.mem m (p - 8) 8 := by
    rw [← hm]
    exact store_keeps _ (by omega)
  have hlisted : ∀ {c e}, c < nxpClasses → e ∈ lists c →
      next m e = next k.mem e ∧ classField m e = c := by
    intro c e hc he
    have heslot := (h.listed hc he).1
    have hne : e ≠ p := by
      rintro rfl
      exact hfree c hc he
    exact h.kept hc he ((hkeep e heslot hne).mono (by omega) (by omega))
  have hhead : next m p = k.freeLists (k.pageClass (nxpPageIndex p)) := by
    unfold next
    rw [← hm, load_store]
    exact Nat.mod_eq_of_lt (h.head_lt hcls)
  have hlinked : ∀ {c}, c < nxpClasses → Linked (next m) (k.freeLists c) (lists c) :=
    fun hc => (h.linked hc).congr fun e he => (hlisted hc he).1
  have hpush : k.pushBlock p =
      { k with
        mem := m
        freeLists := update k.freeLists (k.pageClass (nxpPageIndex p)) p
        pageState := update k.pageState (nxpPageIndex p)
          ((k.pageState (nxpPageIndex p) + 255) % 256) } := by
    unfold pushBlock
    unfold classField at hclass
    dsimp only
    rw [hclass, hm]
  rw [hpush]
  refine ⟨_, h.move hslot rfl (p :: lists (k.pageClass (nxpPageIndex p))) ?_ ?_ ?_ ?_ ?_, rfl, ?_⟩
  · intro e
    rw [List.count_cons, List.count_cons]
    omega
  · intro e he
    exact (List.count_cons_of_ne he.symm).symm
  · omega
  · intro c hc
    by_cases heq : c = k.pageClass (nxpPageIndex p)
    · subst heq
      rw [update_self, update_self]
      refine ⟨rfl, by omega, ?_⟩
      rw [hhead]
      exact hlinked hc
    · rw [update_of_ne heq, update_of_ne heq]
      exact hlinked hc
  · intro c e hc he
    rcases of_update he with ⟨rfl, hin⟩ | ⟨-, hin⟩
    · rcases List.mem_cons.1 hin with rfl | hin
      · rw [← hclass]
        exact load_congr (hown.mono (by omega) (by omega))
      · exact (hlisted hc hin).2
    · exact (hlisted hc hin).2
  · intro e he
    have hne : e ≠ p := by
      rintro rfl
      rw [List.count_cons_self] at honce
      have := List.count_pos_iff.2 he
      omega
    have heslot := (h.held_slot (List.mem_cons_of_mem p he)).1
    exact ⟨rfl, (hkeep e heslot hne).mono (Nat.le_refl _) (by omega)⟩

end Arena

/-! ## Carving -/

section Carve

variable {page : Nat}

/-- One block: its link and class read back, and twelve bytes are written. -/
theorem chainBlock_spec (page : Nat) (hcls : cls < nxpClasses) (i : Nat)
    (hhead : k.freeLists cls < 2 ^ 32) :
    next (k.chainBlock cls page i).mem (page + i * classSize cls + 8) = k.freeLists cls ∧
      classField (k.chainBlock cls page i).mem (page + i * classSize cls + 8) = cls ∧
      ∀ a, a < page + i * classSize cls ∨ page + i * classSize cls + 12 ≤ a →
        (k.chainBlock cls page i).mem a = k.mem a := by
  unfold chainBlock headerSize next classField
  dsimp only
  obtain ⟨h, hh⟩ : ∃ h, page + i * classSize cls = h := ⟨_, rfl⟩
  rw [hh, show h + 8 - 4 = h + 4 by omega]
  refine ⟨?_, ?_, ?_⟩
  · rw [load_store]
    exact Nat.mod_eq_of_lt hhead
  · rw [load_congr (store_keeps _ (by omega)), load_congr (store_keeps _ (by omega)), load_store]
    have hbound : nxpClasses < 256 ^ 2 := by decide
    exact Nat.mod_eq_of_lt (hcls.trans hbound)
  · intro a ha
    rw [store_outside _ (by omega), store_outside _ (by omega), store_outside _ (by omega),
      store_outside _ (by omega)]

/-- The blocks from `i` on, last one first, come in front of the list. -/
theorem chainBlocks_spec (hcls : cls < nxpClasses) (hwindow : page + pageSize ≤ 2 ^ 32)
    {n i : Nat} {l : List Nat} (hn : i + n ≤ pageSize / classSize cls)
    (hhead : k.freeLists cls < 2 ^ 32) (hlinked : Linked (next k.mem) (k.freeLists cls) l)
    (hfar : ∀ e ∈ l, e + 4 ≤ page + i * classSize cls ∨ page + pageSize ≤ e) :
    ∃ m heads, chainBlocks cls page n i k = { k with mem := m, freeLists := heads } ∧
      Linked (next m) (heads cls)
        (((List.range' i n).map fun j => page + j * classSize cls + 8).reverse ++ l) ∧
      (∀ j, i ≤ j → j < i + n → classField m (page + j * classSize cls + 8) = cls) ∧
      (∀ a, a < page + i * classSize cls ∨ page + pageSize ≤ a → m a = k.mem a) ∧
      ∀ c, c ≠ cls → heads c = k.freeLists c := by
  have hsize := classSize_bounds hcls
  induction n generalizing k i l with
  | zero =>
    exact ⟨k.mem, k.freeLists, rfl, hlinked, fun j h1 h2 => absurd h2 (by omega), fun _ _ => rfl,
      fun _ _ => rfl⟩
  | succ n ih =>
    obtain ⟨hnext, hclass, houtside⟩ := chainBlock_spec page hcls i hhead
    have hfit : (i + 1) * classSize cls ≤ pageSize :=
      (Nat.mul_le_mul_right _ (by omega)).trans
        (Nat.div_mul_le_self _ _)
    rw [Nat.add_mul, Nat.one_mul] at hfit
    generalize hk₁ : k.chainBlock cls page i = k₁
    have hheads : k₁.freeLists = update k.freeLists cls (page + i * classSize cls + 8) := by
      rw [← hk₁]
      rfl
    have hrest : k₁ = { k with mem := k₁.mem, freeLists := k₁.freeLists } := by
      rw [← hk₁]
      rfl
    rw [hk₁] at hnext hclass houtside
    have hself : k₁.freeLists cls = page + i * classSize cls + 8 := by
      rw [hheads, update_self]
    have hlinked₁ : Linked (next k₁.mem) (k₁.freeLists cls)
        ((page + i * classSize cls + 8) :: l) := by
      refine ⟨hself, by omega, ?_⟩
      rw [hnext]
      refine hlinked.congr fun e he => load_congr fun a h1 h2 => houtside a ?_
      have := hfar e he
      omega
    obtain ⟨m, heads, hblocks, hlist, hclasses, hout, hothers⟩ := ih (i := i + 1)
      (by omega) (by omega) hlinked₁ (by
        intro e he
        rw [Nat.add_mul, Nat.one_mul]
        rcases List.mem_cons.1 he with rfl | he
        · omega
        · have := hfar e he
          omega)
    rw [Nat.add_mul, Nat.one_mul] at hout
    refine ⟨m, heads, ?_, ?_, ?_, ?_, ?_⟩
    · rw [chainBlocks, hk₁, hblocks, hrest]
    · rw [List.range'_succ, List.map_cons, List.reverse_cons, List.append_assoc]
      exact hlist
    · intro j h1 h2
      by_cases hj : j = i
      · subst hj
        refine Eq.trans (load_congr fun a h3 h4 => hout a ?_) hclass
        omega
      · exact hclasses j (by omega) (by omega)
    · intro a ha
      rw [hout a (by omega), houtside a (by omega)]
    · intro c hc
      rw [hothers c hc, hheads, update_of_ne hc]

end Carve

theorem slotVa_eq (idx cls j : Nat) :
    slotVa idx cls j = nxppBase + idx * pageSize + j * classSize cls + 8 := rfl

theorem pageVa_zero (idx : Nat) : pageVa idx 0 = nxppBase + idx * pageSize := by
  unfold pageVa pageSize
  omega

theorem slots_cons (hcls : cls < nxpClasses) (idx : Nat) :
    slots idx cls = slotVa idx cls 0 ::
      (List.range' 1 (pageSize / classSize cls - 1)).map (slotVa idx cls) := by
  have hsize := classSize_bounds hcls
  unfold slots
  rw [List.range_eq_range', ← List.map_cons, show pageSize / classSize cls =
    (pageSize / classSize cls - 1) + 1 by omega, List.range'_succ]
  rfl

namespace Arena

/-- A page that is owned is not carved. -/
theorem owned_not_bucket (h : Arena k lists held (⟨idx, 1⟩ :: owned)) : ¬k.Bucket idx :=
  fun hb => (h.bucket_run hb).2 List.mem_cons_self

theorem listed_not_in (h : Arena k lists held (⟨idx, 1⟩ :: owned)) (hcls : cls < nxpClasses)
    {e : Nat} (he : e ∈ lists cls) : ¬InPage idx e := by
  obtain ⟨i, hi, hb, -⟩ := h.placed hcls he
  intro hidx
  exact h.owned_not_bucket (inPage_unique hi hidx ▸ hb)

theorem held_not_in (h : Arena k lists held (⟨idx, 1⟩ :: owned)) {e : Nat} (he : e ∈ held) :
    ¬InPage idx e := by
  obtain ⟨i, hi, hb⟩ := h.holds he
  intro hidx
  exact h.owned_not_bucket (inPage_unique hi hidx ▸ hb)

/-- A block outside a page is so with all its bytes. -/
theorem slot_outside {e : Nat} (he : k.IsSlot e) (hidx : ¬InPage idx e) :
    e + 24 ≤ nxppBase + idx * pageSize ∨ nxppBase + idx * pageSize + pageSize + 8 ≤ e := by
  obtain ⟨-, -, hpage, hmem⟩ := he.page
  have hin := slot_in_page hmem
  have hsize := he.size
  have hne : nxpPageIndex e ≠ idx := by
    intro heq
    exact hidx (heq ▸ hpage)
  unfold sizeAt at hsize
  unfold headerSize pageSize at *
  omega

/-- A page that gets marked is one run more of the carved ones. -/
theorem bucketRuns_cons (hbucket : ∀ i, k'.Bucket i ↔ i = idx ∨ k.Bucket i)
    (hnot : ¬k.Bucket idx) (r : Extent) (owned : List Extent) :
    (⟨idx, 1⟩ :: owned).count r + k.bucketRuns r = owned.count r + k'.bucketRuns r := by
  rw [List.count_cons, Nat.add_assoc]
  refine congrArg _ ?_
  unfold bucketRuns
  by_cases hr : (⟨idx, 1⟩ : Extent) = r
  · subst hr
    simp [hbucket, hnot]
  · have hstart : r.count = 1 → r.start ≠ idx := by
      rintro hone rfl
      exact hr (by rw [← hone])
    rw [if_neg (by simpa using hr), Nat.zero_add]
    refine if_congr (and_congr_right fun hone => ?_) rfl rfl
    rw [hbucket, or_iff_right (hstart hone)]

/-- A page is marked with its first block held and the others in front of the list of
the class. -/
theorem carved (h : Arena k lists held (⟨idx, 1⟩ :: owned)) (hcls : cls < nxpClasses)
    {new : List Nat} (hnew : (slotVa idx cls 0 :: new).Perm (slots idx cls))
    (hwindow : k'.window = k.window) (hstate : k'.pageState = update k.pageState idx 1)
    (hclass : k'.pageClass = update k.pageClass idx cls)
    (hlist : Linked (next k'.mem) (k'.freeLists cls) (new ++ lists cls))
    (hothers : ∀ c, c ≠ cls → k'.freeLists c = k.freeLists c)
    (hheader : ∀ e ∈ new, classField k'.mem e = cls)
    (hkeep : ∀ c < nxpClasses, ∀ e ∈ lists c, Keeps k.mem k'.mem (e - 4) 8) :
    Arena k' (update lists cls (new ++ lists cls)) (slotVa idx cls 0 :: held) owned := by
  have hnot := h.owned_not_bucket
  have hbucket : ∀ i, k'.Bucket i ↔ i = idx ∨ k.Bucket i := by
    intro i
    unfold Core.Bucket nxpNotBucket
    rw [hstate]
    by_cases hi : i = idx
    · rw [hi, update_self]
      simp
    · simp [hi]
  have holdClass : ∀ {i}, k.Bucket i → k'.pageClass i = k.pageClass i := by
    intro i hb
    rw [hclass, update_of_ne]
    rintro rfl
    exact hnot hb
  have hpages : ∀ {e}, e ∈ slotVa idx cls 0 :: new → InPage idx e :=
    fun he => inPage_of_mem_slots hcls (hnew.mem_iff.1 he)
  have hmem : ∀ {c e}, e ∈ update lists cls (new ++ lists cls) c →
      c = cls ∧ e ∈ new ∨ e ∈ lists c := by
    intro c e he
    rcases of_update he with ⟨rfl, hin⟩ | ⟨-, hin⟩
    · exact (List.mem_append.1 hin).imp_left fun hn => ⟨rfl, hn⟩
    · exact Or.inr hin
  refine ⟨hwindow ▸ h.window, ?_, ?_, ?_, ?_, ?_, ?_, ?_, ?_⟩
  · intro r
    rw [hwindow, h.runs r, bucketRuns_cons hbucket hnot r owned]
  · intro i hi
    rcases (hbucket i).1 hi with rfl | hb
    · rw [hclass, update_self]
      exact hcls
    · rw [holdClass hb]
      exact h.marked hb
  · intro c hc
    by_cases heq : c = cls
    · subst heq
      rw [update_self]
      exact hlist
    · rw [update_of_ne heq, hothers c heq]
      exact (h.linked hc).congr fun e he => (h.kept hc he (hkeep c hc e he)).1
  · intro c e hc he
    rcases hmem he with ⟨rfl, hn⟩ | hold
    · refine ⟨idx, hpages (List.mem_cons_of_mem _ hn), (hbucket idx).2 (Or.inl rfl), ?_⟩
      rw [hclass, update_self]
    · obtain ⟨i, hi, hb, hci⟩ := h.placed hc hold
      exact ⟨i, hi, (hbucket i).2 (Or.inr hb), (holdClass hb).trans hci⟩
  · intro e he
    rcases List.mem_cons.1 he with rfl | he
    · exact ⟨idx, hpages List.mem_cons_self, (hbucket idx).2 (Or.inl rfl)⟩
    · obtain ⟨i, hi, hb⟩ := h.holds he
      exact ⟨i, hi, (hbucket i).2 (Or.inr hb)⟩
  · intro i e hi he
    by_cases heq : i = idx
    · subst heq
      rw [hclass, update_self, update_self, ← hnew.count_eq, List.count_append,
        List.count_eq_zero.2 fun hl => h.listed_not_in hcls hl he, List.count_cons,
        List.count_eq_zero.2 fun hl => h.held_not_in hl he, List.count_cons]
      omega
    · have hb := ((hbucket i).1 hi).resolve_left heq
      have hout : e ∉ slotVa idx cls 0 :: new := fun hin => heq (inPage_unique he (hpages hin))
      have hne : slotVa idx cls 0 ≠ e := by
        rintro rfl
        exact hout List.mem_cons_self
      rw [holdClass hb, ← h.split hb he, List.count_cons_of_ne hne]
      refine congrArg (· + _) ?_
      by_cases hci : k.pageClass i = cls
      · rw [hci, update_self, List.count_append,
          List.count_eq_zero.2 fun hn => hout (List.mem_cons_of_mem _ hn), Nat.zero_add]
      · rw [update_of_ne hci]
  · intro i hi
    rw [hstate]
    by_cases heq : i = idx
    · subst heq
      rw [update_self,
        List.countP_cons_of_pos (by simpa using hpages List.mem_cons_self),
        List.countP_eq_zero.2 fun e he => by simpa using h.held_not_in he]
    · rw [update_of_ne heq, h.count (((hbucket i).1 hi).resolve_left heq),
        List.countP_cons_of_neg]
      simp only [decide_eq_true_eq]
      exact fun hin => heq (inPage_unique hin (hpages List.mem_cons_self))
  · intro c e hc he
    rcases hmem he with ⟨rfl, hn⟩ | hold
    · exact hheader e hn
    · exact (h.kept hc hold (hkeep c hc e hold)).2

/-- An owned page becomes blocks; the first of them is held. -/
theorem carve (h : Arena k lists held (⟨idx, 1⟩ :: owned)) (hcls : cls < nxpClasses) :
    ∃ lists', Arena (k.carvePage cls (pageVa idx 0)) lists' ((pageVa idx 0 + headerSize) :: held)
        owned ∧
      (k.carvePage cls (pageVa idx 0)).pageClass = update k.pageClass idx cls ∧
      Frame k (k.carvePage cls (pageVa idx 0)) held := by
  have hsize := classSize_bounds hcls
  have hin := h.window.inside _ (h.owned_live List.mem_cons_self)
  rw [pageVa_zero]
  obtain ⟨page, hpage⟩ : ∃ p, nxppBase + idx * pageSize = p := ⟨_, rfl⟩
  have hbounds : page + pageSize ≤ 2 ^ 32 ∧ nxpPageIndex page = idx := by
    unfold nxppPages at hin
    unfold nxpPageIndex
    unfold nxppBase pageSize at *
    dsimp only at hin
    omega
  have hfar : ∀ {c e}, c < nxpClasses → e ∈ lists c → e + 24 ≤ page ∨ page + pageSize + 8 ≤ e := by
    intro c e hc he
    rw [← hpage]
    exact slot_outside (h.listed hc he).1 (h.listed_not_in hc he)
  obtain ⟨m, heads, hblocks, hlist, hclasses, hout, hothers⟩ := chainBlocks_spec
    (k := { k with
      pageState := update k.pageState idx 1
      pageClass := update k.pageClass idx cls })
    (n := pageSize / classSize cls - 1) (i := 1) hcls hbounds.1 (by omega) (h.head_lt hcls)
    (h.linked hcls) (by
      intro e he
      have := hfar hcls he
      omega)
  have hkeep : ∀ {e} b, (e + 24 ≤ page ∨ page + pageSize + 8 ≤ e) → b ≤ 8 →
      Keeps k.mem m (e - b) 8 := fun b he hb a h1 h2 => hout a (by omega)
  have hcarve : k.carvePage cls page =
      { k with
        mem := m
        freeLists := heads
        pageState := update k.pageState idx 1
        pageClass := update k.pageClass idx cls } := by
    unfold carvePage
    rw [hbounds.2]
    exact hblocks
  have hfirst : page + headerSize = slotVa idx cls 0 := by
    rw [slotVa_eq, hpage, Nat.zero_mul, Nat.add_zero]
    rfl
  have hslotVa : (fun j => page + j * classSize cls + 8) = slotVa idx cls := by
    funext j
    rw [slotVa_eq, hpage]
  rw [hpage, hcarve, hfirst]
  rw [hslotVa] at hlist
  refine ⟨_, h.carved hcls ?_ rfl rfl rfl hlist hothers ?_ fun c hc e he => hkeep 4 (hfar hc he) (by decide),
    rfl, ?_⟩
  · rw [slots_cons hcls]
    exact (List.reverse_perm _).cons _
  · intro e he
    obtain ⟨j, hj, rfl⟩ := List.mem_map.1 (List.mem_reverse.1 he)
    obtain ⟨hlo, hhi⟩ := List.mem_range'_1.1 hj
    have hclass := hclasses j hlo hhi
    rwa [← hpage] at hclass
  · intro e he
    have hslot := (h.held_slot he).1
    have hnotin := h.held_not_in he
    have hout := slot_outside hslot hnotin
    rw [hpage] at hout
    refine ⟨update_of_ne ?_ _ _, hkeep 8 hout (Nat.le_refl _)⟩
    intro heq
    exact hnotin (heq ▸ hslot.page.2.2.1)

end Arena

/-! ## Taking a page back -/

/-- The four bytes of a link. -/
def InLink (e a : Nat) : Prop := e ≤ a ∧ a < e + 4

/-- Links that do not overlap. -/
def LinksApart (e e' : Nat) : Prop := e + 4 ≤ e' ∨ e' + 4 ≤ e

theorem LinksApart.not_inLink {e e' a : Nat} (h : LinksApart e e') (ha : InLink e a) :
    ¬InLink e' a := by
  unfold LinksApart at h
  unfold InLink at *
  omega

/-- What `Link` points to is no link of the list. -/
def LinkFree (link : Core.LinkAt) (l : List Nat) : Prop :=
  ∀ b, link = .next b → ∀ e ∈ l, LinksApart b e

/-- Writing through `Link`: it reads back, and only its own bytes change. -/
theorem writeLink_spec (k : Core) (link : Core.LinkAt) {p : Nat} (hp : p < 2 ^ 32) :
    ∃ m heads, k.writeLink link p = { k with mem := m, freeLists := heads } ∧
      (k.writeLink link p).readLink link = p ∧
      (∀ a, (∀ b, link = .next b → ¬InLink b a) → m a = k.mem a) ∧
      ∀ c, link ≠ .head c → heads c = k.freeLists c := by
  cases link with
  | head cls =>
    refine ⟨k.mem, update k.freeLists cls p, rfl, update_self cls _ _,
      fun _ _ => rfl, fun c hc => update_of_ne ?_ _ _⟩
    rintro rfl
    exact hc rfl
  | next blk =>
    refine ⟨store k.mem blk 4 p, k.freeLists, rfl, ?_, fun a ha => store_outside p ?_,
      fun _ _ => rfl⟩
    · show load (store k.mem blk 4 p) blk 4 = p
      rw [load_store]
      exact Nat.mod_eq_of_lt hp
    · have := ha blk rfl
      unfold InLink at this
      omega

/-- The loop of `NxpReclaimEmptyBucketPages` from any link on: the blocks of the page
are unlinked, the others stay in their order, and only links of the list are
written. -/
theorem sweep_spec (page : Nat) {n : Nat} {l : List Nat} {link : Core.LinkAt}
    (hlinked : Linked (next k.mem) (k.readLink link) l) (hn : l.length < n)
    (hbound : ∀ e ∈ l, e < 2 ^ 32) (happart : l.Pairwise LinksApart) (hfree : LinkFree link l) :
    ∃ m heads, sweep page n k link = { k with mem := m, freeLists := heads } ∧
      Linked (next m) ((sweep page n k link).readLink link)
        (l.filter fun e => e / pageSize * pageSize ≠ page) ∧
      (∀ a, (∀ e ∈ l, ¬InLink e a) → (∀ b, link = .next b → ¬InLink b a) → m a = k.mem a) ∧
      ∀ c, link ≠ .head c → heads c = k.freeLists c := by
  induction l generalizing k link n with
  | nil =>
    obtain ⟨n, rfl⟩ : ∃ j, n = j + 1 := ⟨n - 1, by simp at hn; omega⟩
    have hstop : sweep page (n + 1) k link = k := by
      exact if_pos hlinked
    rw [hstop]
    exact ⟨k.mem, k.freeLists, rfl, hlinked, fun _ _ _ => rfl, fun _ _ => rfl⟩
  | cons p l ih =>
    obtain ⟨n, rfl⟩ : ∃ j, n = j + 1 := ⟨n - 1, by simp at hn; omega⟩
    obtain ⟨hread, hne, hrest⟩ := hlinked
    obtain ⟨hfirst, hothers⟩ := List.pairwise_cons.1 happart
    rw [List.length_cons] at hn
    by_cases hin : p / pageSize * pageSize = page
    · have hsmall : next k.mem p < 2 ^ 32 := by
        cases l with
        | nil =>
          rw [show next k.mem p = 0 from hrest]
          decide
        | cons b l =>
          rw [show next k.mem p = b from hrest.1]
          exact hbound b (by simp)
      obtain ⟨m₁, heads₁, hwrite, hback, hout₁, hheads₁⟩ := writeLink_spec k link hsmall
      generalize hk₁ : k.writeLink link (next k.mem p) = k₁
      rw [hk₁] at hwrite hback
      have hlinked₁ : Linked (next k₁.mem) (k₁.readLink link) l := by
        rw [hback]
        refine hrest.congr fun e he => load_congr fun a h1 h2 => ?_
        rw [hwrite]
        exact hout₁ a fun b hb hab =>
          (hfree b hb e (List.mem_cons_of_mem p he)).not_inLink hab ⟨h1, h2⟩
      have hsweep : sweep page (n + 1) k link = sweep page n k₁ link := by
        rw [sweep, hread, if_neg hne, if_pos hin]
        exact congrArg (fun j => sweep page n j link) hk₁
      obtain ⟨m, heads, hdone, hlist, hout, hheads⟩ := ih (n := n) hlinked₁ (by omega)
        (fun e he => hbound e (List.mem_cons_of_mem p he)) hothers
        (fun b hb e he => hfree b hb e (List.mem_cons_of_mem p he))
      rw [hsweep, List.filter_cons_of_neg (by simpa using hin)]
      refine ⟨m, heads, ?_, hlist, ?_, ?_⟩
      · rw [hdone, hwrite]
      · intro a ha hlink
        rw [hout a (fun e he => ha e (List.mem_cons_of_mem p he)) hlink, hwrite]
        exact hout₁ a hlink
      · intro c hc
        rw [hheads c hc, hwrite]
        exact hheads₁ c hc
    · have hsweep : sweep page (n + 1) k link = sweep page n k (.next p) := by
        rw [sweep, hread, if_neg hne, if_neg hin]
      obtain ⟨m, heads, hdone, hlist, hout, hheads⟩ := ih (n := n)
        (show Linked (next k.mem) (k.readLink (.next p)) l from hrest) (by omega)
        (fun e he => hbound e (List.mem_cons_of_mem p he)) hothers
        (by rintro b ⟨rfl⟩ e he; exact hfirst e he)
      have hsame : readLink { k with mem := m, freeLists := heads } link = p := by
        rw [← hread]
        cases link with
        | head c => exact hheads c nofun
        | next b =>
          refine load_congr fun a h1 h2 => hout a ?_ ?_
          · exact fun e he => (hfree b rfl e (List.mem_cons_of_mem p he)).not_inLink ⟨h1, h2⟩
          · rintro _ ⟨rfl⟩
            exact (hfree b rfl p List.mem_cons_self).not_inLink ⟨h1, h2⟩
      rw [hsweep, List.filter_cons_of_pos (by simpa using hin)]
      rw [hdone] at hlist
      refine ⟨m, heads, hdone, ?_, ?_, fun c _ => hheads c nofun⟩
      · rw [hdone, hsame]
        exact ⟨rfl, hne, hlist⟩
      · intro a ha _
        refine hout a (fun e he => ha e (List.mem_cons_of_mem p he)) ?_
        rintro _ ⟨rfl⟩
        exact ha p List.mem_cons_self

theorem align_iff_inPage {e : Nat} :
    e / pageSize * pageSize = pageVa idx 0 ↔ InPage idx e := by
  rw [pageVa_zero]
  unfold InPage
  unfold nxppBase pageSize at *
  omega

namespace Arena

/-- An empty page is unmarked, and its blocks are gone from the list. -/
theorem dropped (h : Arena k lists held owned) (hzero : k.pageState idx = 0)
    (hwindow : k'.window = k.window)
    (hstate : k'.pageState = update k.pageState idx nxpNotBucket)
    (hclass : k'.pageClass = k.pageClass) {l : List Nat}
    (hl : l = (lists (k.pageClass idx)).filter fun e => ¬InPage idx e)
    (hlist : Linked (next k'.mem) (k'.freeLists (k.pageClass idx)) l)
    (hothers : ∀ c < nxpClasses, c ≠ k.pageClass idx →
      Linked (next k'.mem) (k'.freeLists c) (lists c))
    (hkeep : ∀ c < nxpClasses, ∀ e ∈ lists c, Keeps k.mem k'.mem (e - 8) 8) :
    Arena k' (update lists (k.pageClass idx) l) held (⟨idx, 1⟩ :: owned) := by
  have hb : k.Bucket idx := by
    unfold Core.Bucket nxpNotBucket
    omega
  have hbucket : ∀ i, k'.Bucket i ↔ i ≠ idx ∧ k.Bucket i := by
    intro i
    unfold Core.Bucket
    rw [hstate]
    by_cases hi : i = idx
    · rw [hi, update_self]
      simp
    · simp [hi]
  have hempty : ∀ {e}, e ∈ held → ¬InPage idx e := by
    intro e he
    have hcount := h.count hb
    rw [hzero] at hcount
    simpa using List.countP_eq_zero.1 hcount.symm e he
  -- what stays listed was listed, in a page other than this one
  have hmem : ∀ {c e}, c < nxpClasses → e ∈ update lists (k.pageClass idx) l c →
      e ∈ lists c ∧ ¬InPage idx e := by
    intro c e hc he
    rcases of_update he with ⟨rfl, hin⟩ | ⟨heq, hin⟩
    · rw [hl] at hin
      obtain ⟨hold, hout⟩ := List.mem_filter.1 hin
      exact ⟨hold, by simpa using hout⟩
    · refine ⟨hin, ?_⟩
      obtain ⟨i, hi, -, hci⟩ := h.placed hc hin
      intro hidx
      exact heq (hci.symm.trans (congrArg k.pageClass (inPage_unique hi hidx)))
  refine ⟨hwindow ▸ h.window, ?_, ?_, ?_, ?_, ?_, ?_, ?_, ?_⟩
  · intro r
    have hback : ∀ i, k.Bucket i ↔ i = idx ∨ k'.Bucket i := by
      intro i
      by_cases hi : i = idx
      · simp [hi, hb]
      · simp [hi, hbucket]
    rw [hwindow, h.runs r]
    exact (bucketRuns_cons hback (fun hbi => ((hbucket idx).1 hbi).1 rfl) r owned).symm
  · intro i hi
    rw [hclass]
    exact h.marked ((hbucket i).1 hi).2
  · intro c hc
    by_cases heq : c = k.pageClass idx
    · subst heq
      rw [update_self]
      exact hlist
    · rw [update_of_ne heq]
      exact hothers c hc heq
  · intro c e hc he
    obtain ⟨hold, hout⟩ := hmem hc he
    obtain ⟨i, hi, hbi, hci⟩ := h.placed hc hold
    refine ⟨i, hi, (hbucket i).2 ⟨?_, hbi⟩, by rw [hclass]; exact hci⟩
    rintro rfl
    exact hout hi
  · intro e he
    obtain ⟨i, hi, hbi⟩ := h.holds he
    refine ⟨i, hi, (hbucket i).2 ⟨?_, hbi⟩⟩
    rintro rfl
    exact hempty he hi
  · intro i e hi he
    obtain ⟨hne, hbi⟩ := (hbucket i).1 hi
    have hout : ¬InPage idx e := fun hidx => hne (inPage_unique he hidx)
    rw [hclass, ← h.split hbi he]
    refine congrArg (· + _) ?_
    by_cases heq : k.pageClass i = k.pageClass idx
    · rw [heq, update_self, hl, List.count_filter (by simpa using hout)]
    · rw [update_of_ne heq]
  · intro i hi
    obtain ⟨hne, hbi⟩ := (hbucket i).1 hi
    rw [hstate, update_of_ne hne]
    exact h.count hbi
  · intro c e hc he
    obtain ⟨hold, -⟩ := hmem hc he
    refine Eq.trans (load_congr ?_) (h.header hc hold)
    exact (hkeep c hc e hold).mono (by omega) (by omega)

theorem list_nodup (h : Arena k lists held owned) (hcls : cls < nxpClasses) :
    (lists cls).Nodup := by
  refine List.nodup_iff_count_le_one.2 fun e => ?_
  by_cases he : e ∈ lists cls
  · exact le_of_eq (h.listed hcls he).2.2.1
  · rw [List.count_eq_zero.2 he]
    exact Nat.zero_le 1

/-- No list is longer than the window has places for blocks. -/
theorem list_length (h : Arena k lists held owned) (hcls : cls < nxpClasses) :
    (lists cls).length < sweepRounds := by
  have hnodup := h.list_nodup hcls
  have hsub : (lists cls).map (fun e => (e - nxppBase) / 32) ⊆ List.range (nxppPages * 128) := by
    intro n hn
    obtain ⟨e, he, rfl⟩ := List.mem_map.1 hn
    obtain ⟨hb, -, hpage, -⟩ := (h.listed hcls he).1.page
    have hin := h.window.inside _ (h.bucket_run hb).1
    unfold InPage nxppBase pageSize at hpage
    unfold nxppBase
    dsimp only at hin
    rw [List.mem_range]
    omega
  have hinj : ((lists cls).map fun e => (e - nxppBase) / 32).Nodup := by
    refine List.Nodup.map_on ?_ hnodup
    intro e he e' he' heq
    by_contra hne
    have hslot := (h.listed hcls he).1
    have hslot' := (h.listed hcls he').1
    have happart := hslot.apart hslot' hne
    have := hslot.size
    have := hslot'.size
    have := hslot.ge
    have := hslot'.ge
    unfold nxppBase at heq
    omega
  have hle := (hinj.subperm hsub).length_le
  rw [List.length_map, List.length_range] at hle
  unfold sweepRounds
  omega

/-- `takePage` makes an empty page an owned run. -/
theorem take (h : Arena k lists held owned) (htake : k.takePage idx = some k') :
    ∃ lists', Arena k' lists' held (⟨idx, 1⟩ :: owned) ∧ Frame k k' held := by
  unfold takePage at htake
  by_cases hstate : k.pageState idx = 0
  swap
  · rw [if_pos hstate] at htake
    exact absurd htake nofun
  rw [if_neg (fun hne => hne hstate)] at htake
  have hb : k.Bucket idx := by
    unfold Core.Bucket nxpNotBucket
    omega
  have hcls := h.marked hb
  have hsize := classSize_bounds hcls
  obtain ⟨cls, hclass⟩ : ∃ c, k.pageClass idx = c := ⟨_, rfl⟩
  rw [hclass] at hcls hsize
  -- the first block is free, so its header has the class
  have hfirst : slotVa idx cls 0 ∈ slots idx cls := mem_slots.2 ⟨0, by omega, rfl⟩
  have hfirstListed : slotVa idx cls 0 ∈ lists cls := by
    have hpage := inPage_of_mem_slots hcls hfirst
    have hsplit := h.split hb hpage
    rw [hclass] at hsplit
    have hcount := h.count hb
    rw [hstate] at hcount
    have hnot : slotVa idx cls 0 ∉ held := fun hheld => by
      simpa [hpage] using List.countP_eq_zero.1 hcount.symm _ hheld
    rw [List.count_eq_zero.2 hnot] at hsplit
    have := List.count_pos_iff.2 hfirst
    exact List.count_pos_iff.1 (by omega)
  have hread : load k.mem (pageVa idx 0 + 4) 2 = cls := by
    have hheader := h.header hcls hfirstListed
    rw [slotVa_eq, ← pageVa_zero] at hheader
    rw [← hheader]
    congr 1
    omega
  have hslot : ∀ {c e}, c < nxpClasses → e ∈ lists c → k.IsSlot e :=
    fun hc he => (h.listed hc he).1
  have hnodup := h.list_nodup hcls
  have happart : ∀ {e e'}, k.IsSlot e → k.IsSlot e' → e ≠ e' → e + 32 ≤ e' ∨ e' + 32 ≤ e := by
    intro e e' he he' hne
    have := he.apart he' hne
    have := he.size
    have := he'.size
    omega
  obtain ⟨m, heads, hsweep, hlist, hout, hheads⟩ := sweep_spec (pageVa idx 0)
    (show Linked (next k.mem) (k.readLink (.head cls)) (lists cls) from h.linked hcls)
    (h.list_length hcls) (fun e he => h.slot_lt (hslot hcls he))
    (hnodup.imp_of_mem fun {e e'} he he' hne => by
      have := happart (hslot hcls he) (hslot hcls he') hne
      unfold LinksApart
      omega)
    nofun
  dsimp only at htake
  rw [hread, hsweep] at htake
  rw [hsweep] at hlist
  have hk' := (Option.some.inj htake).symm
  obtain ⟨hmem, hfreeLists, hpageState, hpageClass⟩ : k'.mem = m ∧ k'.freeLists = heads ∧
      k'.pageState = update k.pageState idx nxpNotBucket ∧ k'.pageClass = k.pageClass := by
    rw [hk']
    exact ⟨rfl, rfl, rfl, rfl⟩
  -- only links of the class are written, so headers and the other links stay
  have hheader : ∀ {e}, k.IsSlot e → Keeps k.mem m (e - 8) 8 := by
    intro e he a hlo hhi
    refine hout a (fun e' he' hin => ?_) nofun
    unfold InLink at hin
    have hge := he.ge
    by_cases heq : e = e'
    · omega
    · have := happart he (hslot hcls he') heq
      omega
  have hnext : ∀ {c e}, c < nxpClasses → c ≠ cls → e ∈ lists c → next m e = next k.mem e := by
    intro c e hc hne he
    refine load_congr fun a hlo hhi => hout a (fun e' he' hin => ?_) nofun
    unfold InLink at hin
    by_cases heq : e = e'
    · subst heq
      exact hne ((h.listed hc he).2.1.symm.trans (h.listed hcls he').2.1)
    · have := happart (hslot hc he) (hslot hcls he') heq
      omega
  refine ⟨_, h.dropped (l := (lists cls).filter fun e => ¬InPage idx e) hstate (by rw [hk'])
    hpageState hpageClass ?_ ?_ ?_ ?_,
    fun e he => ⟨by rw [hpageClass], hmem ▸ hheader (h.held_slot he).1⟩⟩
  · rw [hclass]
  · rw [hclass]
    have hfilter : ((lists cls).filter fun e => e / pageSize * pageSize ≠ pageVa idx 0) =
        (lists cls).filter fun e => ¬InPage idx e := by
      refine List.filter_congr fun e _ => ?_
      simp only [ne_eq, align_iff_inPage]
    rw [← hfilter, hmem, hfreeLists]
    exact hlist
  · intro c hc hne
    rw [hclass] at hne
    rw [hmem, hfreeLists, hheads c (fun heq => hne (Core.LinkAt.head.inj heq).symm)]
    exact (h.linked hc).congr fun e he => hnext hc hne he
  · intro c hc e he
    rw [hmem]
    exact hheader (hslot hc he)

end Arena

end Roswell.Ports.BucketPool
