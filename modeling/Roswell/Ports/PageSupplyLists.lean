import Mathlib.Data.Finset.Card
import Roswell.Ports.PageSupply
import Roswell.Verified.Runs

/-!
# Free lists and counters of the page supply

The two free lists are threaded through the table words, next to the owner
entries of pages in use.  This module relates the table to its two ghost
lists, states the supply invariant, and proves it for every operation.

Everything rests on three table updates: linking a page in (`nxpPushHead`),
taking it out (`nxpUnlink`), and overwriting the word of a page that is in use.
Each has one specification lemma; the operations are compositions of them.
-/

namespace Roswell.Ports.PageSupply

open Verified.Word Verified.DoubleLink Verified.Runs Function Supply

/-! ## Decoding table words -/

theorem nxpNext_eq (e : Nat) : nxpNext e = e % 2 ^ 15 := by
  rw [nxpNext, show nxpPfnMask = 2 ^ 15 - 1 from rfl, Nat.and_two_pow_sub_one_eq_mod]

theorem nxpPrev_eq (e : Nat) : nxpPrev e = e / 2 ^ 15 % 2 ^ 15 := by
  rw [nxpPrev, show nxpPfnMask = 2 ^ 15 - 1 from rfl, Nat.and_two_pow_sub_one_eq_mod,
    Nat.shiftRight_eq_div_pow, show nxpPrevShift = 15 from rfl]

theorem entryFree_iff (e : Nat) : entryFree e = true ↔ e / 2 ^ 31 % 2 = 1 := by
  rw [entryFree, bne_iff_ne, show nxpFree = 2 ^ 31 from rfl]
  exact and_two_pow_ne_zero e 31

variable {prev next : Nat}

theorem freeEntry_eq (hp : prev < 2 ^ 15) (hn : next < 2 ^ 15) :
    freeEntry prev next = 2 ^ 31 + (prev * 2 ^ 15 + next) := by
  have hlt : prev * 2 ^ 15 + next < 2 ^ 31 := by omega
  rw [freeEntry, show nxpFree = 2 ^ 31 from rfl, show nxpPrevShift = 15 from rfl,
    Nat.or_assoc, or_shiftLeft_eq hn, two_pow_or_eq hlt]

theorem nxpNext_freeEntry (hp : prev < 2 ^ 15) (hn : next < 2 ^ 15) :
    nxpNext (freeEntry prev next) = next := by
  rw [nxpNext_eq, freeEntry_eq hp hn]
  omega

theorem nxpPrev_freeEntry (hp : prev < 2 ^ 15) (hn : next < 2 ^ 15) :
    nxpPrev (freeEntry prev next) = prev := by
  rw [nxpPrev_eq, freeEntry_eq hp hn]
  omega

theorem entryFree_freeEntry (hp : prev < 2 ^ 15)
    (hn : next < 2 ^ 15) : entryFree (freeEntry prev next) = true := by
  rw [entryFree_iff, freeEntry_eq hp hn]
  omega

theorem freeEntry_zero (next : Nat) : nxpFree ||| next = freeEntry 0 next := by
  rw [freeEntry, Nat.zero_shiftLeft, Nat.or_zero]

theorem nxpNext_lt (e : Nat) : nxpNext e < 2 ^ 15 := by
  rw [nxpNext_eq]
  exact Nat.mod_lt _ (by decide)

theorem nxpPrev_lt (e : Nat) : nxpPrev e < 2 ^ 15 := by
  rw [nxpPrev_eq]
  exact Nat.mod_lt _ (by decide)

/-- Words below `2 ^ 30`, the range of owner indices, are never free entries. -/
theorem entryFree_of_lt {e : Nat} (h : e < 2 ^ 30) : entryFree e = false := by
  rw [Bool.eq_false_iff, ne_eq, entryFree_iff]
  omega

theorem ownerIndex_lt (pteVa : Nat) : ownerIndex pteVa < 2 ^ 30 := by
  have h := wsub_lt pteVa nxpOwnerBase
  rw [ownerIndex, Nat.shiftRight_eq_div_pow]
  omega

/-- Decoding the address an owner entry stands for gives the entry back. -/
theorem ownerIndex_ownerPteVa {e : Nat} (h : e < 2 ^ 30) :
    ownerIndex (ownerPteVa e) = e := by
  simp only [ownerIndex, ownerPteVa, wsub_eq, wadd_eq, nxpOwnerBase, Nat.shiftRight_eq_div_pow,
    Nat.shiftLeft_eq]
  omega

/-! ## Field lemmas of the state updates -/

namespace Supply

/-- The head of the list of a class. -/
def headOf (s : Supply) (kernel : Bool) : Nat :=
  if kernel then s.freeHeadKernel else s.freeHeadTitle

section Fields

variable (s : Supply) (page v q : Nat)

@[simp] theorem setEntry_links :
    (s.setEntry page v).links = update s.links page v := rfl

@[simp] theorem setEntry_highestPfn : (s.setEntry page v).highestPfn = s.highestPfn := rfl

@[simp] theorem setHeadFor_links : (s.setHeadFor page v).links = s.links := by
  unfold setHeadFor; split <;> rfl

@[simp] theorem setHeadFor_highestPfn :
    (s.setHeadFor page v).highestPfn = s.highestPfn := by
  unfold setHeadFor; split <;> rfl

@[simp] theorem setHeadFor_kernelClass :
    (s.setHeadFor page v).kernelClass q = s.kernelClass q := by
  unfold setHeadFor; split <;> rfl

@[simp] theorem setHeadFor_spillHint : (s.setHeadFor page v).spillHint = s.spillHint := by
  unfold setHeadFor; split <;> rfl

@[simp] theorem setHeadFor_genericAvail :
    (s.setHeadFor page v).genericAvail = s.genericAvail := by
  unfold setHeadFor; split <;> rfl

@[simp] theorem setHeadFor_availablePages :
    (s.setHeadFor page v).availablePages = s.availablePages := by
  unfold setHeadFor; split <;> rfl

theorem setHeadFor_headOf (c : Bool) :
    (s.setHeadFor page v).headOf c = if s.kernelClass page = c then v else s.headOf c := by
  unfold setHeadFor headOf
  cases s.kernelClass page <;> cases c <;> rfl

end Fields

/-! ## The three table updates -/

/-- Previous and next page of a table word. -/
def prevOf (s : Supply) (page : Nat) : Nat := nxpPrev (s.links page)

def nextOf (s : Supply) (page : Nat) : Nat := nxpNext (s.links page)

theorem prevOf_lt (s : Supply) (page : Nat) : s.prevOf page < 2 ^ 15 := nxpPrev_lt _

theorem nextOf_lt (s : Supply) (page : Nat) : s.nextOf page < 2 ^ 15 := nxpNext_lt _

/-- A list whose words are kept is kept. -/
theorem threaded_of_links {s t : Supply} {head : Nat} {l : List Nat}
    (h : Threaded s.prevOf s.nextOf head l) (hlinks : ∀ y ∈ l, t.links y = s.links y) :
    Threaded t.prevOf t.nextOf head l := by
  refine h.congr ?_ ?_
  · intro y hy
    rw [prevOf, hlinks y hy, prevOf]
  · intro y hy
    rw [nextOf, hlinks y hy, nextOf]

/-- The word of a page in use is overwritten by one that is not a free entry. -/
theorem setEntry_free {s : Supply} {page v : Nat} (hf : s.free page = false)
    (hv : entryFree v = false) (y : Nat) : (s.setEntry page v).free y = s.free y := by
  by_cases hyp : y = page
  · rw [hyp, hf, free, setEntry_links, update_self, hv]
  · rw [free, setEntry_links, update_of_ne hyp, free]

section Unlink

variable {s : Supply} {page q : Nat}

theorem nxpUnlink_links (s : Supply) (page : Nat)
    (hne : s.nextOf page ≠ 0 → s.prevOf page ≠ s.nextOf page) (q : Nat) :
    (s.nxpUnlink page).links q =
      if q = page then 0
      else if s.nextOf page ≠ 0 ∧ q = s.nextOf page then
        freeEntry (s.prevOf page) (s.nextOf q)
      else if s.prevOf page ≠ 0 ∧ q = s.prevOf page then
        freeEntry (s.prevOf q) (s.nextOf page)
      else s.links q := by
  obtain ⟨prev, hprev⟩ : ∃ prev, s.prevOf page = prev := ⟨_, rfl⟩
  obtain ⟨next, hnext⟩ : ∃ next, s.nextOf page = next := ⟨_, rfl⟩
  rw [hprev, hnext] at hne ⊢
  have hprev' : nxpPrev (s.links page) = prev := hprev
  have hnext' : nxpNext (s.links page) = next := hnext
  simp only [nxpUnlink, countOut, hprev', hnext', setEntry_links]
  by_cases hq : q = page
  · simp [hq]
  rw [update_of_ne hq, if_neg hq]
  by_cases hn : next = 0
  · by_cases hp : prev = 0
    · simp [hn, hp]
    · by_cases hqp : q = prev
      · simp [hn, hp, hqp, prevOf]
      · simp [hn, hp, hqp]
  · have hpn := hne hn
    by_cases hqn : q = next
    · subst hqn
      by_cases hp : prev = 0
      · simp [hn, hp, nextOf]
      · simp [hn, hp, nextOf, update_of_ne (Ne.symm hpn)]
    · by_cases hp : prev = 0
      · simp [hn, hp, hqn]
      · by_cases hqp : q = prev
        · simp [hn, hp, hqp, hpn, prevOf]
        · simp [hn, hp, hqn, hqp]

theorem nxpUnlink_free (hne : s.nextOf page ≠ 0 → s.prevOf page ≠ s.nextOf page)
    (hn : s.nextOf page ≠ 0 → s.free (s.nextOf page) = true)
    (hp : s.prevOf page ≠ 0 → s.free (s.prevOf page) = true) (q : Nat) :
    (s.nxpUnlink page).free q = (decide (q ≠ page) && s.free q) := by
  rw [free, nxpUnlink_links s page hne]
  by_cases hq : q = page
  · simp [hq, entryFree]
  rw [if_neg hq]
  split
  · next h1 =>
    rw [entryFree_freeEntry (s.prevOf_lt _) (s.nextOf_lt _), h1.2, hn h1.1]
    simpa [h1.2] using hq
  · next h1 =>
    split_ifs with h2
    · rw [entryFree_freeEntry (s.prevOf_lt _) (s.nextOf_lt _), h2.2, hp h2.1]
      simpa [h2.2] using hq
    · simp [hq, free]

theorem nxpUnlink_nextOf (hne : s.nextOf page ≠ 0 → s.prevOf page ≠ s.nextOf page)
    (hq : q ≠ page) (hq0 : q ≠ 0) :
    (s.nxpUnlink page).nextOf q =
      if q = s.prevOf page then s.nextOf page else s.nextOf q := by
  rw [nextOf, nxpUnlink_links s page hne, if_neg hq]
  by_cases h1 : s.nextOf page ≠ 0 ∧ q = s.nextOf page
  · rw [if_pos h1, nxpNext_freeEntry (s.prevOf_lt _) (s.nextOf_lt _),
      if_neg (by rw [h1.2]; exact (hne h1.1).symm)]
  · rw [if_neg h1]
    by_cases h2 : q = s.prevOf page
    · rw [if_pos ⟨h2 ▸ hq0, h2⟩, if_pos h2,
        nxpNext_freeEntry (s.prevOf_lt _) (s.nextOf_lt _)]
    · rw [if_neg (fun h => h2 h.2), if_neg h2, nextOf]

theorem nxpUnlink_prevOf (hne : s.nextOf page ≠ 0 → s.prevOf page ≠ s.nextOf page)
    (hq : q ≠ page) (hq0 : q ≠ 0) :
    (s.nxpUnlink page).prevOf q =
      if q = s.nextOf page then s.prevOf page else s.prevOf q := by
  rw [prevOf, nxpUnlink_links s page hne, if_neg hq]
  by_cases h1 : q = s.nextOf page
  · rw [if_pos ⟨h1 ▸ hq0, h1⟩, if_pos h1,
      nxpPrev_freeEntry (s.prevOf_lt _) (s.nextOf_lt _)]
  · rw [if_neg (fun h => h1 h.2), if_neg h1]
    split_ifs with h2
    · rw [nxpPrev_freeEntry (s.prevOf_lt _) (s.nextOf_lt _)]
    · rw [prevOf]

@[simp] theorem nxpUnlink_highestPfn : (s.nxpUnlink page).highestPfn = s.highestPfn := by
  simp only [nxpUnlink, countOut, setEntry_highestPfn]
  split <;> split <;> simp

@[simp] theorem nxpUnlink_spillHint : (s.nxpUnlink page).spillHint = s.spillHint := by
  simp only [nxpUnlink, countOut, setEntry]
  split <;> split <;> simp

@[simp] theorem nxpUnlink_kernelClass :
    (s.nxpUnlink page).kernelClass q = s.kernelClass q := by
  simp only [nxpUnlink, countOut, setEntry]
  split <;> split <;> simp [kernelClass] <;> unfold setHeadFor <;> split <;> rfl

theorem nxpUnlink_availablePages :
    (s.nxpUnlink page).availablePages = wsub s.availablePages 1 := by
  simp only [nxpUnlink, countOut, setEntry]
  split <;> split <;> simp

theorem nxpUnlink_genericAvail :
    (s.nxpUnlink page).genericAvail =
      if nxpGenericFloorPfn ≤ page then wsub s.genericAvail 1 else s.genericAvail := by
  simp only [nxpUnlink, countOut, setEntry]
  split <;> split <;> split <;> simp

theorem nxpUnlink_headOf (c : Bool) :
    (s.nxpUnlink page).headOf c =
      if s.kernelClass page = c ∧ s.prevOf page = 0 then s.nextOf page else s.headOf c := by
  have hcount : ∀ t : Supply, (t.countOut page).headOf c = t.headOf c := fun _ => rfl
  have hset : ∀ (t : Supply) p v, (t.setEntry p v).headOf c = t.headOf c := fun _ _ _ => rfl
  simp only [nxpUnlink, prevOf, nextOf, hcount, hset]
  by_cases hp : nxpPrev (s.links page) = 0 <;> by_cases hn : nxpNext (s.links page) = 0 <;>
    simp [setHeadFor_headOf, hset, hp, hn]

theorem threaded_unlink_self {head : Nat} {l : List Nat}
    (h : Threaded s.prevOf s.nextOf head l) (hp : page ∈ l) :
    Threaded (s.nxpUnlink page).prevOf (s.nxpUnlink page).nextOf
      (if s.prevOf page = 0 then s.nextOf page else head) (l.erase page) := by
  have hne := h.prev_ne_next hp
  refine h.unlink hp rfl ?_ ?_
  · intro y hy hyp
    exact nxpUnlink_nextOf hne hyp (h.ne_zero y hy)
  · intro y hy hyp
    exact nxpUnlink_prevOf hne hyp (h.ne_zero y hy)

theorem threaded_unlink_other {head : Nat} {l : List Nat}
    (hne : s.nextOf page ≠ 0 → s.prevOf page ≠ s.nextOf page)
    (h : Threaded s.prevOf s.nextOf head l) (hp : page ∉ l)
    (hprev : s.prevOf page ∉ l) (hnext : s.nextOf page ∉ l) :
    Threaded (s.nxpUnlink page).prevOf (s.nxpUnlink page).nextOf head l := by
  refine h.congr ?_ ?_
  · intro y hy
    have hyp : y ≠ page := fun e => hp (e ▸ hy)
    have hyn : y ≠ s.nextOf page := fun e => hnext (e ▸ hy)
    rw [nxpUnlink_prevOf hne hyp (h.ne_zero y hy), if_neg hyn]
  · intro y hy
    have hyp : y ≠ page := fun e => hp (e ▸ hy)
    have hyq : y ≠ s.prevOf page := fun e => hprev (e ▸ hy)
    rw [nxpUnlink_nextOf hne hyp (h.ne_zero y hy), if_neg hyq]

end Unlink

section Push

variable {s : Supply} {page q : Nat}

theorem nxpPushHead_links (s : Supply) (page : Nat) (hne : s.nxpHeadFor page ≠ page)
    (q : Nat) :
    (s.nxpPushHead page).links q =
      if q = page then freeEntry 0 (s.nxpHeadFor page)
      else if s.nxpHeadFor page ≠ 0 ∧ q = s.nxpHeadFor page then
        freeEntry page (s.nextOf q)
      else s.links q := by
  simp only [nxpPushHead, countIn, setHeadFor_links, freeEntry_zero, setEntry_links,
    update_of_ne hne]
  by_cases hh : s.nxpHeadFor page = 0
  · by_cases hq : q = page
    · simp [hh, hq]
    · simp [hh, hq]
  · by_cases hq : q = page
    · subst hq
      simp [hh, update_of_ne (Ne.symm hne)]
    · by_cases hqh : q = s.nxpHeadFor page
      · subst hqh
        simp [hh, hq, nextOf]
      · simp [hh, hq, hqh]

@[simp] theorem nxpPushHead_highestPfn :
    (s.nxpPushHead page).highestPfn = s.highestPfn := by
  simp only [nxpPushHead, countIn, setHeadFor_highestPfn]
  split <;> rfl

@[simp] theorem nxpPushHead_spillHint : (s.nxpPushHead page).spillHint = s.spillHint := by
  simp only [nxpPushHead, countIn, setHeadFor_spillHint]
  split <;> rfl

theorem nxpPushHead_availablePages :
    (s.nxpPushHead page).availablePages = wadd s.availablePages 1 := by
  simp only [nxpPushHead, countIn, setHeadFor_availablePages]
  split <;> rfl

theorem nxpPushHead_genericAvail :
    (s.nxpPushHead page).genericAvail =
      if nxpGenericFloorPfn ≤ page then wadd s.genericAvail 1 else s.genericAvail := by
  simp only [nxpPushHead, countIn, setHeadFor_genericAvail]
  split <;> split <;> rfl

@[simp] theorem nxpPushHead_kernelClass :
    (s.nxpPushHead page).kernelClass q = s.kernelClass q := by
  have h : ∀ t : Supply, (t.countIn page).kernelClass q = t.kernelClass q := fun _ => rfl
  simp only [nxpPushHead, h, setHeadFor_kernelClass]
  split <;> rfl

theorem nxpPushHead_headOf (c : Bool) :
    (s.nxpPushHead page).headOf c = if s.kernelClass page = c then page else s.headOf c := by
  have hcount : ∀ t : Supply, (t.countIn page).headOf c = t.headOf c := fun _ => rfl
  simp only [nxpPushHead, hcount, setHeadFor_headOf]
  split <;> rfl

end Push

end Supply

/-! ## The two free lists -/

/-- `kernel` and `title` are the pages on the two free lists, in list order:
both are well-formed doubly linked lists, they hold exactly the pages flagged
free, and each page is on the list of its class. -/
structure FreeLists (s : Supply) (kernel title : List Nat) : Prop where
  kernel_list : Threaded s.prevOf s.nextOf s.freeHeadKernel kernel
  title_list : Threaded s.prevOf s.nextOf s.freeHeadTitle title
  kernel_class : ∀ p ∈ kernel, s.kernelClass p = true
  title_class : ∀ p ∈ title, s.kernelClass p = false
  free_iff : ∀ p, s.free p = true ↔ p ∈ kernel ∨ p ∈ title
  free_le : ∀ p, s.free p = true → p ≤ s.highestPfn

namespace FreeLists

variable {s : Supply} {kernel title : List Nat} {page : Nat}

/-- The list of a class. -/
def ofClass (kernel title : List Nat) (c : Bool) : List Nat := if c then kernel else title

theorem list (h : FreeLists s kernel title) : ∀ c,
    Threaded s.prevOf s.nextOf (s.headOf c) (ofClass kernel title c)
  | true => h.kernel_list
  | false => h.title_list

theorem mem (h : FreeLists s kernel title) {c : Bool} {p : Nat} :
    p ∈ ofClass kernel title c ↔ s.free p = true ∧ s.kernelClass p = c := by
  have hkernel := h.kernel_class p
  have htitle := h.title_class p
  rw [h.free_iff]
  cases c <;> grind [ofClass]

theorem of_classes {l : Bool → List Nat}
    (hlist : ∀ c, Threaded s.prevOf s.nextOf (s.headOf c) (l c))
    (hmem : ∀ c p, p ∈ l c ↔ s.free p = true ∧ s.kernelClass p = c)
    (hle : ∀ p, s.free p = true → p ≤ s.highestPfn) : FreeLists s (l true) (l false) := by
  refine ⟨hlist true, hlist false, fun p hp => ((hmem true p).1 hp).2,
    fun p hp => ((hmem false p).1 hp).2, fun p => ?_, hle⟩
  rw [hmem, hmem]
  cases s.kernelClass p <;> simp

/-- What is on no list or on the list of one class is not on that of the other. -/
theorem notMem_other (h : FreeLists s kernel title) {c c' : Bool} (hc : c ≠ c') {q : Nat}
    (hq : q = 0 ∨ q ∈ ofClass kernel title c) : q ∉ ofClass kernel title c' := by
  rcases hq with rfl | hq
  · exact (h.list c').zero_notMem
  · exact fun hq' => hc ((h.mem.1 hq).2.symm.trans (h.mem.1 hq').2)

theorem free_pos (h : FreeLists s kernel title) (hf : s.free page = true) : page ≠ 0 :=
  (h.list _).ne_zero page (h.mem.2 ⟨hf, rfl⟩)

/-- The facts unlinking a free page needs. -/
theorem neighbours (h : FreeLists s kernel title) (hf : s.free page = true) :
    (s.nextOf page ≠ 0 → s.prevOf page ≠ s.nextOf page) ∧
      (s.nextOf page ≠ 0 → s.free (s.nextOf page) = true) ∧
      (s.prevOf page ≠ 0 → s.free (s.prevOf page) = true) := by
  have hl := h.list (s.kernelClass page)
  have hp := h.mem.2 ⟨hf, rfl⟩
  refine ⟨hl.prev_ne_next hp, fun h0 => ?_, fun h0 => ?_⟩
  · exact (h.mem.1 ((hl.next_mem hp).resolve_left h0)).1
  · exact (h.mem.1 ((hl.prev_mem hp).resolve_left h0)).1

theorem unlink_free (h : FreeLists s kernel title) (hf : s.free page = true) (q : Nat) :
    (s.nxpUnlink page).free q = (decide (q ≠ page) && s.free q) := by
  obtain ⟨hne, hn, hp⟩ := h.neighbours hf
  exact nxpUnlink_free hne hn hp q

/-- Unlinking a free page removes it from its list and keeps both lists well
formed. -/
theorem unlink (h : FreeLists s kernel title) (hf : s.free page = true) :
    FreeLists (s.nxpUnlink page) (kernel.erase page) (title.erase page) := by
  have hfree := h.unlink_free hf
  have hl := h.list (s.kernelClass page)
  have hp := h.mem.2 ⟨hf, rfl⟩
  refine of_classes (l := fun c => (ofClass kernel title c).erase page) (fun c => ?_)
    (fun c p => ?_) fun p hp => ?_
  · rw [nxpUnlink_headOf]
    by_cases hc : s.kernelClass page = c
    · simpa [hc] using threaded_unlink_self (h.list c) (hc ▸ hp)
    · rw [List.erase_of_not_mem (h.notMem_other hc (.inr hp))]
      simpa [hc] using threaded_unlink_other (h.neighbours hf).1 (h.list c)
        (h.notMem_other hc (.inr hp)) (h.notMem_other hc (hl.prev_mem hp))
        (h.notMem_other hc (hl.next_mem hp))
  · rw [(h.list c).nodup.mem_erase_iff, h.mem, hfree, nxpUnlink_kernelClass]
    simp [and_assoc]
  · rw [hfree, Bool.and_eq_true] at hp
    rw [nxpUnlink_highestPfn]
    exact h.free_le p hp.2

/-- The head a page is pushed in front of is free, or the list is empty. -/
theorem headFor_cases (h : FreeLists s kernel title) (page : Nat) :
    s.nxpHeadFor page = 0 ∨ s.free (s.nxpHeadFor page) = true := by
  by_cases h0 : s.nxpHeadFor page = 0
  · exact .inl h0
  · exact .inr (h.mem.1 ((h.list (s.kernelClass page)).head_mem h0)).1

section Push

variable (h : FreeLists s kernel title) (hf : s.free page = false)
include h hf

theorem headFor_ne (h0 : page ≠ 0) : s.nxpHeadFor page ≠ page := by
  intro e
  rcases h.headFor_cases page with h0' | hfree
  · exact h0 (e.symm.trans h0')
  · rw [e, hf] at hfree
    contradiction

variable (h0 : page ≠ 0) (hle : page ≤ s.highestPfn) (hmax : s.highestPfn < 2 ^ 15)
include h0 hle hmax

omit hf h0 hle in
theorem headFor_lt : s.nxpHeadFor page < 2 ^ 15 := by
  rcases h.headFor_cases page with e | hfree
  · omega
  · have := h.free_le _ hfree
    omega

theorem push_free (q : Nat) :
    (s.nxpPushHead page).free q = (decide (q = page) || s.free q) := by
  have hhead : s.nxpHeadFor page < 2 ^ 15 := h.headFor_lt hmax
  rw [free, nxpPushHead_links s page (h.headFor_ne hf h0)]
  by_cases hq : q = page
  · rw [if_pos hq, entryFree_freeEntry (by decide) hhead]
    simp [hq]
  · split_ifs with hqh
    · rw [entryFree_freeEntry (by omega) (s.nextOf_lt q), hqh.2,
        (h.headFor_cases page).resolve_left hqh.1]
      simp
    · simp [hq, free]

/-- Linking a page in front of the list of its class. -/
theorem threaded_push_self {head : Nat} {l : List Nat}
    (hl : Threaded s.prevOf s.nextOf head l) (hhead : s.nxpHeadFor page = head)
    (hfree : ∀ p ∈ l, s.free p = true) :
    Threaded (s.nxpPushHead page).prevOf (s.nxpPushHead page).nextOf page (page :: l) := by
  have hne := h.headFor_ne hf h0
  have hhlt : head < 2 ^ 15 := hhead ▸ h.headFor_lt hmax
  have hmem : page ∉ l := fun hm => by
    rw [hfree page hm] at hf
    contradiction
  refine hl.push hmem h0 ?_ ?_ ?_ ?_
  · rw [prevOf, nxpPushHead_links s page hne, if_pos rfl, hhead,
      nxpPrev_freeEntry (by decide) hhlt]
  · rw [nextOf, nxpPushHead_links s page hne, if_pos rfl, hhead,
      nxpNext_freeEntry (by decide) hhlt]
  · intro y hy
    have hyp : y ≠ page := fun e => hmem (e ▸ hy)
    rw [prevOf, nxpPushHead_links s page hne, if_neg hyp, hhead]
    by_cases hyh : y = head
    · rw [if_pos ⟨hyh ▸ hl.ne_zero y hy, hyh⟩, if_pos hyh,
        nxpPrev_freeEntry (by omega) (s.nextOf_lt y)]
    · rw [if_neg (fun e => hyh e.2), if_neg hyh, prevOf]
  · intro y hy
    have hyp : y ≠ page := fun e => hmem (e ▸ hy)
    rw [nextOf, nxpPushHead_links s page hne, if_neg hyp, hhead]
    by_cases hyh : y = head
    · rw [if_pos ⟨hyh ▸ hl.ne_zero y hy, hyh⟩,
        nxpNext_freeEntry (by omega) (s.nextOf_lt y)]
    · rw [if_neg (fun e => hyh e.2), nextOf]

omit hle hmax in
theorem threaded_push_other {head : Nat} {l : List Nat}
    (hl : Threaded s.prevOf s.nextOf head l) (hhead : s.nxpHeadFor page ∉ l)
    (hfree : ∀ p ∈ l, s.free p = true) :
    Threaded (s.nxpPushHead page).prevOf (s.nxpPushHead page).nextOf head l := by
  refine threaded_of_links hl ?_
  intro y hy
  have hyp : y ≠ page := fun e => by
    rw [← e, hfree y hy] at hf
    contradiction
  have hyh : y ≠ s.nxpHeadFor page := fun e => hhead (e ▸ hy)
  rw [nxpPushHead_links s page (h.headFor_ne hf h0), if_neg hyp,
    if_neg (fun e => hyh e.2)]

/-- Returning a page puts it in front of the list of its class. -/
theorem push :
    FreeLists (s.nxpPushHead page)
      (if s.kernelClass page = true then page :: kernel else kernel)
      (if s.kernelClass page = false then page :: title else title) := by
  have hfree := h.push_free hf h0 hle hmax
  have hlfree : ∀ c, ∀ p ∈ ofClass kernel title c, s.free p = true := fun c p hp => (h.mem.1 hp).1
  refine of_classes (l := fun c => if s.kernelClass page = c then page :: ofClass kernel title c
    else ofClass kernel title c) (fun c => ?_) (fun c p => ?_) fun p hp => ?_
  · rw [nxpPushHead_headOf]
    split_ifs with hc
    · exact h.threaded_push_self hf h0 hle hmax (h.list c) (hc ▸ rfl) (hlfree c)
    · refine h.threaded_push_other hf h0 (h.list c) (h.notMem_other hc ?_) (hlfree c)
      exact (Classical.em _).imp_right (h.list (s.kernelClass page)).head_mem
  · rw [hfree, nxpPushHead_kernelClass]
    by_cases hc : s.kernelClass page = c
    · by_cases hp : p = page
      · simp [hc, hp]
      · simp [hc, hp, h.mem]
    · simp only [hc, if_false, h.mem]
      grind
  · rw [hfree, Bool.or_eq_true, decide_eq_true_eq] at hp
    rw [nxpPushHead_highestPfn]
    rcases hp with rfl | hp
    · exact hle
    · exact h.free_le p hp

end Push

/-- Rewriting the word of a page in use is invisible to the lists. -/
theorem setEntry (h : FreeLists s kernel title) (hf : s.free page = false) {v : Nat}
    (hv : entryFree v = false) : FreeLists (s.setEntry page v) kernel title := by
  have hframe : ∀ y, s.free y = true → (s.setEntry page v).links y = s.links y := by
    intro y hy
    have hyp : y ≠ page := fun e => by
      rw [e, hf] at hy
      contradiction
    simp [update_of_ne hyp]
  have hfree := setEntry_free hf hv
  refine ⟨?_, ?_, h.kernel_class, h.title_class, ?_, ?_⟩
  · refine threaded_of_links h.kernel_list ?_
    exact fun y hy => hframe y ((h.free_iff y).2 (.inl hy))
  · refine threaded_of_links h.title_list ?_
    exact fun y hy => hframe y ((h.free_iff y).2 (.inr hy))
  · intro p
    rw [hfree, h.free_iff p]
  · intro p hp
    rw [hfree] at hp
    exact h.free_le p hp

end FreeLists

/-! ## The supply invariant -/

/-- The pages flagged free. -/
def Supply.freePages (s : Supply) : Finset Nat :=
  (Finset.range (s.highestPfn + 1)).filter (fun p => s.free p = true)

/-- The free pages at or above the generic floor. -/
def Supply.genericPages (s : Supply) : Finset Nat :=
  s.freePages.filter (fun p => nxpGenericFloorPfn ≤ p)

/-- The invariant of the supply.  The four fields after the bounds are the list
structure and the three redundant counters and hints.  The remaining ones keep
the hint inside the table, owner entries apart from free entries, and the
kernel-preferred class above the generic floor. -/
structure Inv (s : Supply) : Prop where
  floor_le : nxpGenericFloorPfn ≤ s.highestPfn
  highest_lt : s.highestPfn < 2 ^ 15
  lists : ∃ kernel title, FreeLists s kernel title
  available : s.availablePages = s.freePages.card
  generic : s.genericAvail = s.genericPages.card
  hint_low : ∀ p, s.free p = true → nxpGenericFloorPfn ≤ p → s.spillHint ≤ p
  hint_pos : 1 ≤ s.spillHint
  hint_le : s.spillHint ≤ s.highestPfn
  owner_lt : ∀ p, s.free p = false → s.links p < 2 ^ 30
  kernel_floor : ∀ p, s.kernelClass p = true → nxpGenericFloorPfn ≤ p

namespace Inv

variable {s : Supply} {page q : Nat}

theorem free_pos (h : Inv s) (hf : s.free page = true) : page ≠ 0 := by
  obtain ⟨kernel, title, hl⟩ := h.lists
  exact hl.free_pos hf

theorem free_le (h : Inv s) (hf : s.free page = true) : page ≤ s.highestPfn := by
  obtain ⟨kernel, title, hl⟩ := h.lists
  exact hl.free_le page hf

theorem mem_freePages (h : Inv s) : page ∈ s.freePages ↔ s.free page = true := by
  simp only [freePages, Finset.mem_filter, Finset.mem_range]
  constructor
  · exact fun hp => hp.2
  · exact fun hf => ⟨Nat.lt_succ_of_le (h.free_le hf), hf⟩

theorem mem_genericPages (h : Inv s) :
    page ∈ s.genericPages ↔ s.free page = true ∧ nxpGenericFloorPfn ≤ page := by
  rw [genericPages, Finset.mem_filter, h.mem_freePages]

theorem card_freePages_lt (h : Inv s) : s.freePages.card < 2 ^ 16 := by
  have hle := Finset.card_filter_le (Finset.range (s.highestPfn + 1))
    (fun p => s.free p = true)
  rw [Finset.card_range] at hle
  have := h.highest_lt
  unfold freePages
  omega

theorem card_genericPages_le (s : Supply) :
    s.genericPages.card ≤ s.freePages.card :=
  Finset.card_filter_le _ _

theorem unlink_free (h : Inv s) (hf : s.free page = true) (q : Nat) :
    (s.nxpUnlink page).free q = (decide (q ≠ page) && s.free q) := by
  obtain ⟨kernel, title, hl⟩ := h.lists
  exact hl.unlink_free hf q

/-- Unlinking touches no page in use. -/
theorem unlink_links (h : Inv s) (hf : s.free page = true) (hq : s.free q = false) :
    (s.nxpUnlink page).links q = s.links q := by
  obtain ⟨kernel, title, hl⟩ := h.lists
  obtain ⟨hne, hn, hp⟩ := hl.neighbours hf
  have hqp : q ≠ page := fun e => by
    rw [e, hf] at hq
    contradiction
  have hqn : ¬(s.nextOf page ≠ 0 ∧ q = s.nextOf page) := by
    rintro ⟨h0, rfl⟩
    rw [hn h0] at hq
    contradiction
  have hqv : ¬(s.prevOf page ≠ 0 ∧ q = s.prevOf page) := by
    rintro ⟨h0, rfl⟩
    rw [hp h0] at hq
    contradiction
  rw [nxpUnlink_links s page hne, if_neg hqp, if_neg hqn, if_neg hqv]

/-- An unlinked page is in use and nobody owns it. -/
theorem unlink_links_self (h : Inv s) (hf : s.free page = true) :
    (s.nxpUnlink page).links page = 0 := by
  obtain ⟨kernel, title, hl⟩ := h.lists
  rw [nxpUnlink_links s page (hl.neighbours hf).1, if_pos rfl]

theorem unlink_freePages (h : Inv s) (hf : s.free page = true) :
    (s.nxpUnlink page).freePages = s.freePages.erase page := by
  ext p
  simp only [freePages, nxpUnlink_highestPfn, h.unlink_free hf,
    Finset.mem_filter, Finset.mem_erase, Bool.and_eq_true, decide_eq_true_eq]
  exact and_left_comm

theorem unlink_genericPages (h : Inv s) (hf : s.free page = true) :
    (s.nxpUnlink page).genericPages = s.genericPages.erase page := by
  rw [genericPages, h.unlink_freePages hf, genericPages,
    Finset.filter_erase]

/-- Taking a free page off its list keeps the invariant. -/
theorem unlink (h : Inv s) (hf : s.free page = true) : Inv (s.nxpUnlink page) := by
  have hfree := h.unlink_free hf
  have hmem := h.mem_freePages.2 hf
  have hpos : 0 < s.freePages.card := Finset.card_pos.2 ⟨page, hmem⟩
  have hlt := h.card_freePages_lt
  refine
    { floor_le := by simpa using h.floor_le
      highest_lt := by simpa using h.highest_lt
      lists := ?_
      available := ?_
      generic := ?_
      hint_low := ?_
      hint_pos := by simpa using h.hint_pos
      hint_le := by simpa using h.hint_le
      owner_lt := ?_
      kernel_floor := by simpa using h.kernel_floor }
  · obtain ⟨kernel, title, hl⟩ := h.lists
    exact ⟨_, _, hl.unlink hf⟩
  · rw [nxpUnlink_availablePages, h.unlink_freePages hf, h.available,
      wsub_of_le (by omega) (by omega), Finset.card_erase_of_mem hmem]
  · rw [nxpUnlink_genericAvail, h.unlink_genericPages hf, h.generic]
    by_cases hfl : nxpGenericFloorPfn ≤ page
    · have hgmem := h.mem_genericPages.2 ⟨hf, hfl⟩
      have hgpos : 0 < s.genericPages.card := Finset.card_pos.2 ⟨page, hgmem⟩
      have hgle := card_genericPages_le s
      rw [if_pos hfl, wsub_of_le (by omega) (by omega), Finset.card_erase_of_mem hgmem]
    · have hgmem : page ∉ s.genericPages := fun hm => hfl (h.mem_genericPages.1 hm).2
      rw [if_neg hfl, Finset.erase_eq_of_notMem hgmem]
  · intro p hp hfl
    rw [hfree, Bool.and_eq_true] at hp
    rw [nxpUnlink_spillHint]
    exact h.hint_low p hp.2 hfl
  · intro p hp
    rw [hfree, Bool.and_eq_false_iff] at hp
    rcases hp with hp | hp
    · have hpp : p = page := by simpa using hp
      rw [hpp, h.unlink_links_self hf]
      decide
    · rw [h.unlink_links hf hp]
      exact h.owner_lt p hp

/-- Overwriting the word of a page in use by an owner entry keeps the
invariant. -/
theorem setEntry (h : Inv s) (hf : s.free page = false) {v : Nat} (hv : v < 2 ^ 30) :
    Inv (s.setEntry page v) := by
  have hv' := entryFree_of_lt hv
  have hfree := setEntry_free hf hv'
  have hpages : (s.setEntry page v).freePages = s.freePages := by
    simp only [freePages, setEntry_highestPfn, hfree]
  refine
    { h with
      lists := ?_
      available := ?_
      generic := ?_
      hint_low := ?_
      owner_lt := ?_ }
  · obtain ⟨kernel, title, hl⟩ := h.lists
    exact ⟨_, _, hl.setEntry hf hv'⟩
  · rw [hpages]
    exact h.available
  · rw [genericPages, hpages]
    exact h.generic
  · intro p hp
    rw [hfree] at hp
    exact h.hint_low p hp
  · intro p hp
    rw [hfree] at hp
    by_cases hpp : p = page
    · simpa [hpp] using hv
    · simpa [update_of_ne hpp] using h.owner_lt p hp

/-- Moving the spill hint keeps the invariant as long as it stays a lower
bound of the free generic pages. -/
theorem setHint (h : Inv s) {hint : Nat} (h1 : 1 ≤ hint) (hle : hint ≤ s.highestPfn)
    (hlow : ∀ p, s.free p = true → nxpGenericFloorPfn ≤ p → hint ≤ p) :
    Inv { s with spillHint := hint } := by
  obtain ⟨kernel, title, hl⟩ := h.lists
  exact
    { h with
      lists := ⟨kernel, title, hl.1, hl.2, hl.3, hl.4, hl.5, hl.6⟩
      hint_low := hlow
      hint_pos := h1
      hint_le := hle }

end Inv

end Roswell.Ports.PageSupply
