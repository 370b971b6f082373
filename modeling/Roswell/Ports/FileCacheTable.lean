import Mathlib
import Roswell.Verified.Tally
import Roswell.Ports.FileCache

/-!
# The block table of the file cache

Under any interleaving the table of blocks stays well formed: a block of a file is cached
once, the LRU list holds exactly the blocks that belong to a file, the count of active
blocks is right, every reference belongs to a BCB or to a call in progress, and a block
that is referenced or busy is not given away.

`Post` says what one step of one thread keeps.  Its two balances relate the references
and the busy flags of the blocks to what the thread holds before and after.
-/

namespace Roswell.Ports.FileCache

open Verified.Bytes Verified.Runs Verified.Tally Function

/-! ## What a thread holds -/

/-- The references a piece of code has to a block. -/
def Work.holds {B : Type} (i : Slot) : Work B → Nat
  | .readDone io _ _ _ => if io.slot = i then 1 else 0
  | .use _ j => if j = i then 1 else 0
  | .writeDone io _ _ _ => if io.slot = i then 1 else 0
  | _ => 0

/-- The blocks it has made busy. -/
def Work.moves {B : Type} (i : Slot) : Work B → Nat
  | .readDone io _ _ _ => if io.slot = i then 1 else 0
  | .writeDone io _ _ _ => if io.slot = i then 1 else 0
  | _ => 0

namespace Pc

variable {B : Type}

/-- The references a thread has to a block through a call in progress. -/
def holds (i : Slot) : Pc B → Nat
  | .outside w => w.holds i
  | .inside w => w.holds i
  | .reading io _ => if io.slot = i then 1 else 0
  | .writing io _ => if io.slot = i then 1 else 0
  | .filling _ j => if j = i then 1 else 0
  | _ => 0

/-- The blocks a thread has made busy. -/
def moves (i : Slot) : Pc B → Nat
  | .outside w => w.moves i
  | .inside w => w.moves i
  | .reading io _ => if io.slot = i then 1 else 0
  | .writing io _ => if io.slot = i then 1 else 0
  | _ => 0

/-- It holds no block. -/
def Free (pc : Pc B) : Prop := ∀ i, pc.holds i = 0 ∧ pc.moves i = 0

end Pc

/-- The reference a BCB has to a block. -/
def onBlock (i : Slot) : Option NxcBcb → Nat
  | some bcb => if bcb.block = i then 1 else 0
  | none => 0

/-! ## The table -/

/-- The table of blocks with its list and its count is well formed. -/
structure Table (blocks : Slot → NxcBlock) (lru : List Slot) (active : Nat) : Prop where
  single : ∀ i j m, (blocks i).map = some m → (blocks j).map = some m →
    (blocks i).offset = (blocks j).offset → i = j
  nodup : lru.Nodup
  mem : ∀ i, i ∈ lru ↔ (blocks i).map.isSome
  backed : ∀ i, (blocks i).map.isSome → (blocks i).data.isSome
  held : ∀ i, 0 < (blocks i).refCount ∨ (blocks i).busy → (blocks i).map.isSome
  count : active = (Finset.univ.filter fun i : Slot =>
    i.val < maxBlocks ∧ (blocks i).data.isSome).card

/-- A block that may not be given away. -/
def NxcBlock.Pinned (b : NxcBlock) : Prop := 0 < b.refCount ∨ b.busy = true

/-- It keeps its file, its offset and its buffer. -/
structure NxcBlock.Stays (b b' : NxcBlock) : Prop where
  map : b'.map = b.map
  offset : b'.offset = b.offset
  data : b.data.isSome → b'.data.isSome

theorem NxcBlock.Stays.refl (b : NxcBlock) : b.Stays b := ⟨rfl, rfl, id⟩

theorem NxcBlock.Stays.trans {b b' b'' : NxcBlock} (h : b.Stays b') (h' : b'.Stays b'') :
    b.Stays b'' :=
  ⟨h'.map.trans h.map, h'.offset.trans h.offset, fun hd => h'.data (h.data hd)⟩

/-- It keeps its file and its offset, and it has a buffer if it had one. -/
structure NxcBlock.InPlace (b b' : NxcBlock) : Prop where
  map : b'.map = b.map
  offset : b'.offset = b.offset
  data : b'.data.isSome = b.data.isSome

theorem NxcBlock.InPlace.stays {b b' : NxcBlock} (h : b.InPlace b') : b.Stays b' :=
  ⟨h.map, h.offset, h.data.trans⟩

theorem NxcBlock.InPlace.update {blocks : Slot → NxcBlock} {i : Slot} {b : NxcBlock}
    (h : (blocks i).InPlace b) : ∀ j, (blocks j).InPlace (update blocks i b j) :=
  (forall_update_iff blocks fun j b => (blocks j).InPlace b).2 ⟨h, fun _ _ => ⟨rfl, rfl, rfl⟩⟩

namespace Table

variable {blocks : Slot → NxcBlock} {lru : List Slot} {active : Nat}

/-- Blocks change, but not their places in the table. -/
theorem rework (h : Table blocks lru active) {blocks' : Slot → NxcBlock} {active' : Nat}
    (hmaps : ∀ j, (blocks' j).map = (blocks j).map)
    (hoffsets : ∀ j, (blocks j).map.isSome → (blocks' j).offset = (blocks j).offset)
    (hbacked : ∀ j, (blocks j).map.isSome → (blocks' j).data.isSome)
    (hheld : ∀ j, 0 < (blocks' j).refCount ∨ (blocks' j).busy → (blocks j).map.isSome)
    (hcount : active' = (Finset.univ.filter fun j : Slot =>
      j.val < maxBlocks ∧ (blocks' j).data.isSome).card) : Table blocks' lru active' where
  single j k m hj hk ho := by
    rw [hmaps] at hj hk
    rw [hoffsets j (Option.isSome_of_mem hj), hoffsets k (Option.isSome_of_mem hk)] at ho
    exact h.single j k m hj hk ho
  nodup := h.nodup
  mem j := by rw [hmaps]; exact h.mem j
  backed j hj := by
    rw [hmaps] at hj
    exact hbacked j hj
  held j hj := by
    rw [hmaps]
    exact hheld j hj
  count := hcount

variable {b : NxcBlock} {i : Slot}

/-- One block changes, but not its place in the table. -/
theorem alter (h : Table blocks lru active) (i : Slot)
    (hplace : (blocks i).InPlace b) (hheld : 0 < b.refCount ∨ b.busy → (blocks i).map.isSome) :
    Table (update blocks i b) lru active := by
  have hall := hplace.update
  refine h.rework (fun j => (hall j).map) (fun j _ => (hall j).offset)
    (fun j hj => (hall j).data.trans (h.backed j hj)) ?_ ?_
  · exact (forall_update_iff blocks fun j b => 0 < b.refCount ∨ b.busy → (blocks j).map.isSome).2
      ⟨hheld, fun j _ => h.held j⟩
  · simp only [fun j => (hall j).data]
    exact h.count

/-- A block that is in nobody's use leaves its file. -/
theorem retire (h : Table blocks lru active) (i : Slot)
    (hmap : b.map = none) (hdata : b.data.isSome = (blocks i).data.isSome)
    (hfree : b.refCount = 0 ∧ b.busy = false) :
    Table (update blocks i b) (lru.erase i) active := by
  have hother : ∀ {j}, (update blocks i b j).map.isSome → j ≠ i := by
    intro j hj hji
    subst hji
    rw [update_self, hmap] at hj
    cases hj
  constructor
  · intro j k m hj hk ho
    have hji := hother (Option.isSome_of_mem hj)
    have hki := hother (Option.isSome_of_mem hk)
    rw [update_of_ne hji] at hj ho
    rw [update_of_ne hki] at hk ho
    exact h.single j k m hj hk ho
  · exact h.nodup.erase i
  · intro j
    rw [h.nodup.mem_erase_iff]
    constructor
    · rintro ⟨hji, hj⟩
      rw [update_of_ne hji]
      exact (h.mem j).1 hj
    · intro hj
      have hji := hother hj
      rw [update_of_ne hji] at hj
      exact ⟨hji, (h.mem j).2 hj⟩
  · intro j hj
    have hji := hother hj
    rw [update_of_ne hji] at hj ⊢
    exact h.backed j hj
  · refine (forall_update_iff blocks fun _ b => 0 < b.refCount ∨ b.busy → b.map.isSome).2
      ⟨fun hheld => ?_, fun j _ => h.held j⟩
    rw [hfree.1, hfree.2] at hheld
    exact absurd hheld (by decide)
  · simp only [update_same (fun b : NxcBlock => b.data.isSome) hdata]
    exact h.count

/-- A slot without a file becomes a block that is not cached yet. -/
theorem enter (h : Table blocks lru active) (i : Slot) {m : Nat}
    (hfree : (blocks i).map = none) (hmap : b.map = some m)
    (hnew : ∀ j, (blocks j).map = some m → (blocks j).offset ≠ b.offset)
    (hsome : (blocks i).data.isSome) (hdata : b.data.isSome) :
    Table (update blocks i b) (lru ++ [i]) active := by
  have hout : i ∉ lru := by
    rw [h.mem, hfree]
    decide
  constructor
  · intro j k m' hj hk ho
    by_cases hji : j = i
    · subst hji
      by_cases hkj : k = j
      · exact hkj.symm
      · rw [update_self, hmap] at hj
        rw [update_of_ne hkj] at hk ho
        rw [update_self] at ho
        cases hj
        exact absurd ho.symm (hnew k hk)
    · by_cases hki : k = i
      · subst hki
        rw [update_self, hmap] at hk
        rw [update_of_ne hji] at hj ho
        rw [update_self] at ho
        cases hk
        exact absurd ho (hnew j hj)
      · rw [update_of_ne hji] at hj ho
        rw [update_of_ne hki] at hk ho
        exact h.single j k m' hj hk ho
  · refine List.Nodup.append h.nodup (List.nodup_singleton i) ?_
    intro j hj hji
    rw [List.mem_singleton] at hji
    exact hout (hji ▸ hj)
  · refine (forall_update_iff blocks fun j b => j ∈ lru ++ [i] ↔ b.map.isSome).2 ⟨?_, ?_⟩
    · simp [hmap]
    · intro j hji
      simp [h.mem, hji]
  · exact (forall_update_iff blocks fun _ b => b.map.isSome → b.data.isSome).2
      ⟨fun _ => hdata, fun j _ => h.backed j⟩
  · exact (forall_update_iff blocks fun _ b => 0 < b.refCount ∨ b.busy → b.map.isSome).2
      ⟨fun _ => Option.isSome_of_mem hmap, fun j _ => h.held j⟩
  · simp only [update_same (fun b : NxcBlock => b.data.isSome) (hdata.trans hsome.symm)]
    exact h.count

/-- A block of the list becomes its last one. -/
theorem touch (h : Table blocks lru active) (hi : (blocks i).map.isSome) :
    Table blocks (lru.erase i ++ [i]) active := by
  have hperm : (lru.erase i ++ [i]).Perm lru :=
    (List.perm_append_singleton _ _).trans (List.perm_cons_erase ((h.mem i).2 hi)).symm
  refine ⟨h.single, hperm.nodup_iff.2 h.nodup, fun j => ?_, h.backed, h.held, h.count⟩
  rw [hperm.mem_iff, h.mem]

/-- A slot gets a buffer. -/
theorem grow (h : Table blocks lru active) (hlow : i.val < maxBlocks)
    (hnone : (blocks i).data = none) (hsome : b.data.isSome)
    (hmap : b.map = (blocks i).map) (hoffset : b.offset = (blocks i).offset)
    (href : b.refCount = (blocks i).refCount) (hbusy : b.busy = (blocks i).busy) :
    Table (update blocks i b) lru (active + 1) := by
  refine h.rework (update_same NxcBlock.map hmap) (fun j _ => update_same NxcBlock.offset hoffset j)
    ?_ (fun j hj => ?_) ?_
  · exact (forall_update_iff blocks fun j b => (blocks j).map.isSome → b.data.isSome).2
      ⟨fun _ => hsome, fun j _ => h.backed j⟩
  · rw [update_same NxcBlock.refCount href, update_same NxcBlock.busy hbusy] at hj
    exact h.held j hj
  · have hset : (Finset.univ.filter fun j =>
        j.val < maxBlocks ∧ (update blocks i b j).data.isSome) =
        insert i (Finset.univ.filter fun j =>
          j.val < maxBlocks ∧ (blocks j).data.isSome) := by
      ext j
      by_cases hji : j = i
      · subst hji
        simp [hsome, hlow]
      · simp [hji]
    rw [hset, Finset.card_insert_of_notMem, h.count]
    simp [hnone]

/-- A slot without a file loses its buffer. -/
theorem drop (h : Table blocks lru active) (hlow : i.val < maxBlocks)
    (hsome : (blocks i).data.isSome) (hnone : b.data = none) (hmap : (blocks i).map = none)
    (hmap' : b.map = none) (hfree : b.refCount = 0 ∧ b.busy = false) :
    Table (update blocks i b) lru (active - 1) := by
  have hother : ∀ j, (blocks j).map.isSome → update blocks i b j = blocks j := by
    intro j hj
    refine update_of_ne ?_ ..
    rintro rfl
    rw [hmap] at hj
    cases hj
  refine h.rework (update_same NxcBlock.map (hmap'.trans hmap.symm))
    (fun j hj => by rw [hother j hj]) (fun j hj => by rw [hother j hj]; exact h.backed j hj)
    ?_ ?_
  · refine (forall_update_iff blocks fun j b => 0 < b.refCount ∨ b.busy → (blocks j).map.isSome).2
      ⟨fun hheld => ?_, fun j _ => h.held j⟩
    rw [hfree.1, hfree.2] at hheld
    exact absurd hheld (by decide)
  · have hset : (Finset.univ.filter fun j =>
        j.val < maxBlocks ∧ (update blocks i b j).data.isSome) =
        (Finset.univ.filter fun j =>
          j.val < maxBlocks ∧ (blocks j).data.isSome).erase i := by
      ext j
      by_cases hji : j = i
      · subst hji
        simp [hnone]
      · simp [hji]
    rw [hset, Finset.card_erase_of_mem, h.count]
    simp [hlow, hsome]

end Table

/-! ## One step of one thread -/

section
variable {B : Type} [Fintype B]

/-- What one step keeps, from a cache and a place of the thread to the next ones. -/
structure Post (c : Cache B) (pc : Pc B) (r : Cache B × Pc B) : Prop where
  table : Table r.1.blocks r.1.lru r.1.activeBlocks
  refs : ∀ i, (r.1.blocks i).refCount + pc.holds i + tally (onBlock i) c.bcbs =
    (c.blocks i).refCount + r.2.holds i + tally (onBlock i) r.1.bcbs
  busy : ∀ i, (r.1.blocks i).busy.toNat + pc.moves i = (c.blocks i).busy.toNat + r.2.moves i
  stays : ∀ i, (c.blocks i).Pinned → (c.blocks i).Stays (r.1.blocks i)

namespace Post

variable {c c' : Cache B} {pc pc' : Pc B} {r : Cache B × Pc B}

/-- A step that leaves the blocks alone. -/
theorem same (h : Table c.blocks c.lru c.activeBlocks)
    (hsame : (c'.blocks, c'.lru, c'.activeBlocks, c'.bcbs) =
      (c.blocks, c.lru, c.activeBlocks, c.bcbs))
    (hheld : ∀ i, pc'.holds i = pc.holds i ∧ pc'.moves i = pc.moves i) :
    Post c pc (c', pc') := by
  simp only [Prod.mk.injEq] at hsame
  obtain ⟨hblocks, hlru, hactive, hbcbs⟩ := hsame
  constructor
  · rw [hblocks, hlru, hactive]
    exact h
  · intro i
    rw [hblocks, (hheld i).1, hbcbs]
  · intro i
    rw [hblocks, (hheld i).2]
  · intro i _
    rw [hblocks]
    exact .refl _

/-- A step that changes one block and not its place in the table. -/
theorem modify (h : Table c.blocks c.lru c.activeBlocks) (j : Slot) {f : NxcBlock → NxcBlock}
    (hplace : (c.blocks j).InPlace (f (c.blocks j)))
    (hheld : 0 < (f (c.blocks j)).refCount ∨ (f (c.blocks j)).busy → (c.blocks j).map.isSome)
    (hother : ∀ i, i ≠ j → pc'.holds i = pc.holds i ∧ pc'.moves i = pc.moves i)
    (hrefs : (f (c.blocks j)).refCount + pc.holds j = (c.blocks j).refCount + pc'.holds j)
    (hbusy : (f (c.blocks j)).busy.toNat + pc.moves j = (c.blocks j).busy.toNat + pc'.moves j) :
    Post c pc (c.modify j f, pc') where
  table := h.alter j hplace hheld
  refs i := by
    have hall := (forall_update_iff c.blocks fun i b =>
      b.refCount + pc.holds i = (c.blocks i).refCount + pc'.holds i).2
      ⟨hrefs, fun i hij => by rw [(hother i hij).1]⟩
    exact congrArg (· + tally (onBlock i) c.bcbs) (hall i)
  busy := (forall_update_iff c.blocks fun i b =>
    b.busy.toNat + pc.moves i = (c.blocks i).busy.toNat + pc'.moves i).2
    ⟨hbusy, fun i hij => by rw [(hother i hij).2]⟩
  stays i _ := (hplace.update i).stays

/-- Two steps in a row; what the first one leaves pinned the second one keeps. -/
theorem trans (h : Post c pc (c', pc')) (h' : Post c' pc' r)
    (hpinned : ∀ i, (c.blocks i).Pinned → (c'.blocks i).Pinned) : Post c pc r where
  table := h'.table
  refs i := by
    have hfirst := h.refs i
    have hsecond := h'.refs i
    dsimp only at hfirst
    omega
  busy i := by
    have hfirst := h.busy i
    have hsecond := h'.busy i
    dsimp only at hfirst
    omega
  stays i hi := (h.stays i hi).trans (h'.stays i (hpinned i hi))

/-- Only what the thread holds counts, not where it is. -/
theorem moved {pc₁ pc₂ : Pc B} (h : Post c pc₁ r) (hholds : ∀ i, pc₂.holds i = pc₁.holds i)
    (hmoves : ∀ i, pc₂.moves i = pc₁.moves i) : Post c pc₂ r where
  table := h.table
  refs i := by rw [hholds]; exact h.refs i
  busy i := by rw [hmoves]; exact h.busy i
  stays := h.stays

end Post

end

/-! ## The pieces of code -/

section
variable {B : Type}

theorem Flusher.resume_free (k : Flusher B) (ok : Bool) (got : Nat) : (k.resume ok got).Free := by
  cases k <;> exact fun _ => ⟨rfl, rfl⟩

theorem Then.resume_free (k : Then B) (ok : Bool) (total : Nat) : (k.resume ok total).Free := by
  cases k <;> exact fun _ => ⟨rfl, rfl⟩

theorem Pc.ite_free (p : Prop) [Decidable p] {a b : Pc B} (ha : a.Free) (hb : b.Free) :
    (if p then a else b).Free := by
  split
  · exact ha
  · exact hb

theorem Use.finish_free (u : Use B) : u.finish.Free := by
  cases u <;> dsimp only [Use.finish] <;> repeat' split
  all_goals exact fun _ => ⟨rfl, rfl⟩

/-- A call that asks for its next block holds none. -/
theorem Use.more_free (u : Use B) (m : Nat) (wait : Bool) {pc : Work B → Pc B}
    (hpc : ∀ g, (pc (.lookup g)).Free) : (u.more m wait pc).Free := by
  unfold Use.more
  split
  · exact hpc _
  · exact u.finish_free

end

namespace Cache

variable {B : Type}

theorem modify_modify (c : Cache B) (i : Slot) (f g : NxcBlock → NxcBlock) :
    (c.modify i f).modify i g = c.modify i fun b => g (f b) := by
  unfold modify
  dsimp only
  rw [update_idem, update_self]

@[simp] theorem modify_self (c : Cache B) (i : Slot) (f : NxcBlock → NxcBlock) :
    (c.modify i f).blocks i = f (c.blocks i) := update_self ..

theorem modify_of_ne (c : Cache B) {i j : Slot} (f : NxcBlock → NxcBlock) (h : j ≠ i) :
    (c.modify i f).blocks j = c.blocks j := update_of_ne h ..

@[simp] theorem retire_self (c : Cache B) (i : Slot) :
    (c.retire i).blocks i = { c.blocks i with map := none, valid := false } :=
  update_self ..

variable {c : Cache B} {i : Slot}

/-- What is pinned stays so when one block is pinned by the change. -/
theorem pinned_modify {f : NxcBlock → NxcBlock}
    (hf : (f (c.blocks i)).Pinned) :
    ∀ j, (c.blocks j).Pinned → ((c.modify i f).blocks j).Pinned :=
  (forall_update_iff c.blocks fun j b => (c.blocks j).Pinned → b.Pinned).2
    ⟨fun _ => hf, fun _ _ => id⟩

theorem retire_refCount (c : Cache B) (i j : Slot) :
    ((c.retire i).blocks j).refCount = (c.blocks j).refCount :=
  update_same NxcBlock.refCount (by rfl) j

theorem retire_busy (c : Cache B) (i j : Slot) :
    ((c.retire i).blocks j).busy = (c.blocks j).busy :=
  update_same NxcBlock.busy (by rfl) j

theorem lookupBlock_some {m o : Nat} (h : c.lookupBlock m o = some i) :
    (c.blocks i).map = some m ∧ (c.blocks i).offset = o ∧ (c.blocks i).data.isSome := by
  simpa using List.find?_some h

theorem lookupBlock_none {m o : Nat} (h : c.lookupBlock m o = none) (i : Slot)
    (hmap : (c.blocks i).map = some m) (hdata : (c.blocks i).data.isSome) :
    (c.blocks i).offset ≠ o := by
  intro ho
  have := List.find?_eq_none.1 h i (List.mem_finRange i)
  simp [hmap, ho, hdata] at this

theorem freeSlot_some {p : Slot → Bool} (h : c.freeSlot p = some i) :
    p i = true ∧ (c.blocks i).data.isSome ∧ (c.blocks i).map = none := by
  simpa using List.find?_some h

theorem cleanReserve_some (h : c.cleanReserve = some i) :
    maxBlocks ≤ i.val ∧ (c.blocks i).data.isSome ∧ (c.blocks i).refCount = 0 ∧
      (c.blocks i).busy = false ∧ (c.blocks i).dirty = false := by
  simpa using List.find?_some h

/-- A block `NxcClaimSlot` takes is one nobody uses. -/
theorem victim_some {blocks : Slot → NxcBlock} {lru : List Slot} {found : Option Slot}
    (h : victim blocks lru found = some i) :
    found = some i ∨ i ∈ lru ∧ (blocks i).refCount = 0 ∧ (blocks i).busy = false := by
  induction lru generalizing found with
  | nil => exact Or.inl h
  | cons j rest ih =>
    rw [victim] at h
    split at h
    · exact (ih h).imp_right fun ⟨hi, hfree⟩ => ⟨List.mem_cons_of_mem _ hi, hfree⟩
    · next hfree =>
      have hj : (blocks j).refCount = 0 ∧ (blocks j).busy = false := by
        simp only [not_or, Bool.not_eq_true, not_not] at hfree
        exact hfree.2
      split at h
      · rcases ih h with hfound | ⟨hi, hi'⟩
        · cases found with
          | none =>
            cases hfound
            exact Or.inr ⟨List.mem_cons_self, hj⟩
          | some k => exact Or.inl hfound
        · exact Or.inr ⟨List.mem_cons_of_mem _ hi, hi'⟩
      · cases h
        exact Or.inr ⟨List.mem_cons_self, hj⟩

section
variable [Fintype B] {c : Cache B} (h : Table c.blocks c.lru c.activeBlocks)
include h

variable {i : Slot} {g : Get B}

theorem readDone_post {io : Io} {ok : Bool}
    {got : Nat} (href : 0 < (c.blocks io.slot).refCount)
    (hbusy : (c.blocks io.slot).busy = true) :
    Post c (.inside (.readDone io g ok got)) (c.readDone io g ok got) := by
  have hmapped := h.held io.slot (Or.inl href)
  unfold readDone
  split
  · refine Post.modify h io.slot ⟨rfl, rfl, by simp⟩ (fun _ => hmapped) ?_ ?_ ?_
    · intro i hi
      simp [Pc.holds, Work.holds, Pc.moves, Work.moves, hi.symm]
    · simp [Pc.holds, Work.holds]
    · simp [Pc.moves, Work.moves, hbusy]
  · refine Post.modify h io.slot ⟨rfl, rfl, rfl⟩ (fun _ => hmapped) ?_ ?_ ?_
    · intro i hi
      simp [Pc.holds, Work.holds, Pc.moves, Work.moves, hi.symm]
    · simp only [Pc.holds, Work.holds, if_true]
      omega
    · simp [Pc.moves, Work.moves, hbusy]

theorem readBlock_post
    (href : 0 < (c.blocks i).refCount) (hbusy : (c.blocks i).busy = false) :
    Post c (.inside (.use g i)) (c.readBlock g i) := by
  have hmapped := h.held i (Or.inl href)
  have hfirst : ∀ pc, (∀ j, pc.holds j = if i = j then 1 else 0) →
      (∀ j, pc.moves j = if i = j then 1 else 0) →
      Post c (.inside (.use g i)) (c.modify i fun b => { b with busy := true }, pc) := by
    intro pc hholds hmoves
    refine Post.modify h i ⟨rfl, rfl, rfl⟩ (fun _ => hmapped) ?_ ?_ ?_
    · intro j hj
      rw [hholds, hmoves, if_neg hj.symm]
      simp [Pc.holds, Work.holds, Pc.moves, Work.moves, hj.symm]
    · rw [hholds]
      rfl
    · rw [hmoves, hbusy]
      simp [Pc.moves, Work.moves]
  unfold readBlock
  split
  · have hmark := hfirst (.inside (.readDone (c.io i g.map) g true 0)) (fun _ => rfl) fun _ => rfl
    refine hmark.trans (readDone_post hmark.table ?_ ?_) (pinned_modify (Or.inr rfl))
    · dsimp only [io]
      rw [modify_self]
      exact href
    · dsimp only [io]
      rw [modify_self]
  · exact hfirst _ (fun _ => rfl) fun _ => rfl

theorem writeDone_post {io : Io} {k : Flusher B}
    {ok : Bool} {got : Nat} (href : 0 < (c.blocks io.slot).refCount)
    (hbusy : (c.blocks io.slot).busy = true) :
    Post c (.inside (.writeDone io k ok got)) (c.writeDone io k ok got) := by
  have hpost : Post c (.inside (.writeDone io k ok got))
      (c.modify io.slot fun b =>
        { b with dirty := b.dirty && !ok, busy := false, refCount := b.refCount - 1 },
        k.resume ok got) := by
    refine Post.modify h io.slot ⟨rfl, rfl, rfl⟩ (fun _ => h.held io.slot (Or.inl href)) ?_ ?_ ?_
    · intro i hi
      rw [(k.resume_free ok got i).1, (k.resume_free ok got i).2]
      simp [Pc.holds, Work.holds, Pc.moves, Work.moves, hi.symm]
    · rw [(k.resume_free ok got _).1]
      simp only [Pc.holds, Work.holds, if_true]
      omega
    · rw [(k.resume_free ok got _).2, hbusy]
      simp [Pc.moves, Work.moves]
  exact { hpost with }

theorem flushBlock_post {m : Nat}
    {k : Flusher B} {pc : Pc B} (hmapped : (c.blocks i).map.isSome)
    (hbusy : (c.blocks i).busy = false) (hpc : pc.Free) :
    Post c pc (c.flushBlock i m k) := by
  have hfirst : ∀ pc', (∀ j, pc'.holds j = if i = j then 1 else 0) →
      (∀ j, pc'.moves j = if i = j then 1 else 0) →
      Post c pc (c.modify i fun b => { b with refCount := b.refCount + 1, busy := true }, pc') := by
    intro pc' hholds hmoves
    refine Post.modify h i ⟨rfl, rfl, rfl⟩ (fun _ => hmapped) ?_ ?_ ?_
    · intro j hj
      rw [hholds, hmoves, if_neg hj.symm, (hpc j).1, (hpc j).2]
      exact ⟨rfl, rfl⟩
    · rw [hholds, (hpc i).1, if_pos rfl]
    · rw [hmoves, (hpc i).2, if_pos rfl, hbusy]
      rfl
  unfold flushBlock
  split
  · have hmark := hfirst (.inside (.writeDone (c.io i m) k true 0)) (fun _ => rfl) fun _ => rfl
    refine hmark.trans (writeDone_post hmark.table ?_ ?_) (pinned_modify (Or.inr rfl))
    · dsimp only [io]
      rw [modify_self]
      exact Nat.succ_pos _
    · dsimp only [io]
      rw [modify_self]
  · have hpost := hfirst (.writing (c.io i m) k) (fun _ => rfl) fun _ => rfl
    exact { hpost with }

/-- A block in nobody's use leaves its file. -/
theorem clear_post {b : NxcBlock} (pc : Pc B)
    (href : (c.blocks i).refCount = 0) (hbusy : (c.blocks i).busy = false)
    (hmap : b.map = none) (hdata : b.data.isSome = (c.blocks i).data.isSome)
    (hfree : b.refCount = 0 ∧ b.busy = false) :
    Post c pc ({ c with blocks := update c.blocks i b, lru := c.lru.erase i }, pc) where
  table := h.retire i hmap hdata hfree
  refs j := by
    rw [update_same NxcBlock.refCount (hfree.1.trans href.symm) j]
  busy j := by
    rw [update_same NxcBlock.busy (hfree.2.trans hbusy.symm) j]
  stays j hj := by
    have hji : j ≠ i := by
      rintro rfl
      exact absurd hj (by simp [NxcBlock.Pinned, href, hbusy])
    dsimp only
    rw [update_of_ne hji]
    exact .refl _

theorem retire_post (pc : Pc B)
    (href : (c.blocks i).refCount = 0) (hbusy : (c.blocks i).busy = false) :
    Post c pc (c.retire i, pc) :=
  clear_post h pc href hbusy rfl rfl ⟨href, hbusy⟩

theorem discardBlock_post (pc : Pc B)
    (href : (c.blocks i).refCount = 0) (hbusy : (c.blocks i).busy = false) :
    Post c pc (c.discardBlock i, pc) := by
  have hblocks : c.discardBlock i = { c with
      blocks := update c.blocks i
        { c.blocks i with map := none, valid := false, dirty := false }
      lru := c.lru.erase i } := by
    unfold discardBlock
    rw [modify, retire_self]
    unfold retire modify
    rw [update_idem]
  rw [hblocks]
  exact clear_post h pc href hbusy rfl rfl ⟨href, hbusy⟩

/-- A slot in nobody's use loses its buffer. -/
theorem freeData_post
    (hlow : i.val < maxBlocks) (pc : Pc B) (hdata : (c.blocks i).data.isSome)
    (href : (c.blocks i).refCount = 0) (hbusy : (c.blocks i).busy = false) :
    Post c pc (c.freeData i, pc) := by
  obtain ⟨c', hc'⟩ : ∃ c', c' = if (c.blocks i).map.isSome then c.retire i else c := ⟨_, rfl⟩
  have hretire : Post c pc (c', pc) ∧ (c'.blocks i).map = none ∧
      (c'.blocks i).data.isSome ∧ c'.activeBlocks = c.activeBlocks ∧ c'.bcbs = c.bcbs ∧
      ∀ j, (c'.blocks j).refCount = (c.blocks j).refCount ∧
        (c'.blocks j).busy = (c.blocks j).busy := by
    split at hc'
    · subst hc'
      refine ⟨retire_post h pc href hbusy, ?_, ?_, rfl, rfl, fun j => ?_⟩
      · rw [retire_self]
      · rw [retire_self]
        exact hdata
      · exact ⟨retire_refCount c i j, retire_busy c i j⟩
    · next hnone =>
      subst hc'
      exact ⟨Post.same h rfl fun _ => ⟨rfl, rfl⟩,
        Option.not_isSome_iff_eq_none.1 hnone, hdata, rfl, rfl, fun _ => ⟨rfl, rfl⟩⟩
  obtain ⟨hpost, hmap, hsome, hactive, hbcbs, hsame⟩ := hretire
  have hfree : (c'.blocks i).refCount = 0 ∧ (c'.blocks i).busy = false :=
    ⟨(hsame i).1.trans href, (hsame i).2.trans hbusy⟩
  unfold freeData
  rw [← hc']
  refine ⟨?_, fun j => ?_, fun j => ?_, fun j hj => ?_⟩
  · rw [← hactive]
    exact hpost.table.drop hlow hsome rfl hmap hmap hfree
  · have hrefs := hpost.refs j
    dsimp only at hrefs ⊢
    rwa [modify, update_same NxcBlock.refCount (by rfl) j]
  · have hb := hpost.busy j
    dsimp only at hb ⊢
    rwa [modify, update_same NxcBlock.busy (by rfl) j]
  · have hji : j ≠ i := by
      rintro rfl
      exact absurd hj (by simp [NxcBlock.Pinned, href, hbusy])
    rw [modify_of_ne c' _ hji]
    exact hpost.stays j hj

theorem install_post
    (hfree : (c.blocks i).map = none) (hdata : (c.blocks i).data.isSome) :
    Post c (.inside (.claim g)) (c.install g i) := by
  have hidle : ¬ (c.blocks i).Pinned := fun hpinned => by
    have := h.held i hpinned
    rw [hfree] at this
    cases this
  have href : (c.blocks i).refCount = 0 := Nat.eq_zero_of_not_pos fun hpos => hidle (Or.inl hpos)
  have hbusy : (c.blocks i).busy = false := Bool.eq_false_iff.2 fun hb => hidle (Or.inr hb)
  unfold install
  split
  · refine Post.same h ?_ fun _ => ⟨rfl, rfl⟩
    simp [modify, ← hfree, ← href]
  · next hnone =>
    -- the claimed slot, referenced by this thread
    have hclaim : Post c (.inside (.claim g))
        ({ c.modify i fun b =>
            { b with
              map := some g.map
              offset := g.offset
              refCount := 1
              valid := false
              dirty := false } with lru := c.lru ++ [i] }, .inside (.use g i)) := by
      refine ⟨h.enter i hfree rfl ?_ hdata hdata, fun j => ?_, fun j => ?_, fun j hj => ?_⟩
      · intro j hj
        exact lookupBlock_none hnone j hj (h.backed j (Option.isSome_of_mem hj))
      · by_cases hji : j = i
        · subst hji
          simp [modify, Pc.holds, Work.holds, href]
        · simp [modify, Pc.holds, Work.holds, update_of_ne hji, Ne.symm hji]
      · by_cases hji : j = i
        · subst hji
          simp [modify, Pc.moves, Work.moves]
        · simp [modify, Pc.moves, Work.moves, update_of_ne hji]
      · have hji : j ≠ i := fun hji => hidle (hji ▸ hj)
        rw [show _ = c.blocks j from modify_of_ne c _ hji]
        exact .refl _
    refine hclaim.trans (readBlock_post hclaim.table ?_ ?_) ?_
    · rw [modify_self]
      exact Nat.one_pos
    · rw [modify_self]
      exact hbusy
    · intro j hj
      have hji : j ≠ i := fun hji => hidle (hji ▸ hj)
      rw [modify_of_ne c _ hji]
      exact hj

/-- A block in nobody's use is given up and its slot taken. -/
theorem retire_install_post
    (hdata : (c.blocks i).data.isSome) (href : (c.blocks i).refCount = 0)
    (hbusy : (c.blocks i).busy = false) :
    Post c (.inside (.claim g)) ((c.retire i).install g i) := by
  have hretire := retire_post h (.inside (.claim g)) href hbusy
  refine hretire.trans (install_post hretire.table ?_ ?_) ?_
  · rw [retire_self]
  · rw [retire_self]
    exact hdata
  · intro j hj
    rw [NxcBlock.Pinned, retire_refCount, retire_busy]
    exact hj

theorem claim_post (g : Get B) : Post c (.inside (.claim g)) (c.claim g) := by
  have hwait : Post c (.inside (.claim g)) (c, .outside (.claim g)) :=
    Post.same h rfl fun _ => ⟨rfl, rfl⟩
  unfold claim
  split
  · next i hi =>
    obtain ⟨-, hdata, hfree⟩ := freeSlot_some hi
    exact install_post h hfree hdata
  split
  · next i hi =>
    obtain ⟨hmem, href, hbusy⟩ := (victim_some hi).resolve_left (by simp)
    have hmapped := (h.mem i).1 hmem
    unfold takeVictim
    split
    · split
      · exact flushBlock_post h hmapped hbusy fun _ => ⟨rfl, rfl⟩
      · exact Post.same h rfl fun _ => ⟨rfl, rfl⟩
    · exact retire_install_post h (h.backed i hmapped) href hbusy
  · unfold claimReserve
    split
    · split
      · next i hi =>
        obtain ⟨-, hdata, hfree⟩ := freeSlot_some hi
        exact install_post h hfree hdata
      · split
        · next i hi =>
          obtain ⟨-, hdata, href, hbusy, -⟩ := cleanReserve_some hi
          exact retire_install_post h hdata href hbusy
        · exact hwait
    · exact hwait

theorem lookup_post (g : Get B) : Post c (.inside (.lookup g)) (c.lookup g) := by
  unfold lookup
  split
  · next i hi =>
    have hmapped : (c.blocks i).map.isSome := Option.isSome_of_mem (lookupBlock_some hi).1
    have hadd : Post c (.inside (.lookup g)) (c.addRef i, .inside (.use g i)) := by
      refine Post.modify h i ⟨rfl, rfl, rfl⟩ (fun _ => hmapped) ?_ ?_ rfl
      · intro j hj
        simp [Pc.holds, Work.holds, Pc.moves, Work.moves, hj.symm]
      · simp [Pc.holds, Work.holds]
    split
    · refine Post.same h rfl ?_
      exact Pc.ite_free _ (fun _ => ⟨rfl, rfl⟩) fun _ => ⟨rfl, rfl⟩
    · next hbusy =>
      split
      · have htouch := hadd.table.touch (show ((c.addRef i).blocks i).map.isSome by
          rw [addRef, modify_self]; exact hmapped)
        exact ⟨htouch, hadd.refs, hadd.busy, hadd.stays⟩
      split
      · refine hadd.trans (readBlock_post hadd.table ?_ ?_)
          (pinned_modify (Or.inl (Nat.succ_pos _)))
        · dsimp only [addRef]
          rw [modify_self]
          exact Nat.succ_pos _
        · dsimp only [addRef]
          rw [modify_self]
          exact Bool.eq_false_iff.2 hbusy
      · exact Post.same h rfl fun _ => ⟨rfl, rfl⟩
  · refine Post.same h rfl ?_
    exact Pc.ite_free _ (fun _ => ⟨rfl, rfl⟩) fun _ => ⟨rfl, rfl⟩

/-- A block loses the reference of the call that used it. -/
theorem release_post
    {f : NxcBlock → NxcBlock} {pc : Pc B} (href : 0 < (c.blocks i).refCount)
    (hplace : (c.blocks i).InPlace (f (c.blocks i)))
    (hrefs : (f (c.blocks i)).refCount = (c.blocks i).refCount - 1)
    (hbusy : (f (c.blocks i)).busy = (c.blocks i).busy)
    (hpc : pc.Free) :
    Post c (.inside (.use g i)) (c.modify i f, pc) := by
  refine Post.modify h i hplace (fun _ => h.held i (Or.inl href)) ?_ ?_ ?_
  · intro j hj
    rw [(hpc j).1, (hpc j).2]
    simp [Pc.holds, Work.holds, Pc.moves, Work.moves, hj.symm]
  · rw [hrefs, (hpc i).1]
    simp only [Pc.holds, Work.holds, if_true]
    omega
  · rw [hbusy, (hpc i).2]
    rfl

theorem useBlock_post (a : Answer B) (href : 0 < (c.blocks i).refCount) :
    Post c (.inside (.use g i)) (c.useBlock a g i) := by
  have hmore : ∀ u : Use B, (u.more g.map g.wait .inside).Free :=
    fun u => u.more_free g.map g.wait fun _ _ => ⟨rfl, rfl⟩
  unfold useBlock putBlock
  split
  · split
    · exact release_post h href ⟨rfl, rfl, rfl⟩ rfl rfl fun _ => ⟨rfl, rfl⟩
    · exact release_post h href ⟨rfl, rfl, rfl⟩ rfl rfl (hmore _)
  · dsimp only
    split
    · rw [modify_modify]
      exact release_post h href ⟨rfl, rfl, by simp⟩ rfl rfl fun _ => ⟨rfl, rfl⟩
    · rw [modify_modify]
      exact release_post h href ⟨rfl, rfl, by simp⟩ rfl rfl (hmore _)
  · dsimp only
    rw [modify_modify]
    exact release_post h href ⟨rfl, rfl, by simp⟩ rfl rfl (hmore _)
  · exact Post.same h rfl fun _ => ⟨rfl, rfl⟩

theorem finishFlush_post (f : Flush B) (n : Nat) :
    Post c (.inside (.scan f n)) (c.finishFlush f) := by
  unfold finishFlush
  split
  · next k _ =>
    exact Post.same h rfl (k.resume_free _ _)
  · exact Post.same h rfl fun _ => ⟨rfl, rfl⟩
  · exact Post.same h rfl fun _ => ⟨rfl, rfl⟩
  · next k _ =>
    exact Post.same h rfl (k.resume_free _ _)
  · exact Post.same h rfl fun _ => ⟨rfl, rfl⟩
  · exact Post.same h rfl fun _ => ⟨rfl, rfl⟩
  · exact Post.same h rfl fun _ => ⟨rfl, rfl⟩

theorem scan_post (f : Flush B) (n : Nat) : Post c (.inside (.scan f n)) (c.scan f n) := by
  have hnext : Post c (.inside (.scan f n)) (c, .inside (.scan f (n + 1))) :=
    Post.same h rfl fun _ => ⟨rfl, rfl⟩
  unfold scan
  dsimp only
  split
  · split
    · next hblock =>
      split
      · exact Post.same h rfl fun _ => ⟨rfl, rfl⟩
      · next hbusy =>
        split
        · exact flushBlock_post h (Option.isSome_of_mem hblock.1) (Bool.eq_false_iff.2 hbusy)
            fun _ => ⟨rfl, rfl⟩
        · split
          · next hdiscard =>
            exact (discardBlock_post h (.inside (.scan f (n + 1))) hdiscard.2
              (Bool.eq_false_iff.2 hbusy)).moved (fun _ => rfl) fun _ => rfl
          · exact hnext
    · exact hnext
  · exact finishFlush_post h f n

theorem grow_post (a : Answer B) (target n : Nat) :
    Post c (.inside (.grow target n)) (c.grow a target n) := by
  unfold grow
  dsimp only
  split
  · next hn =>
    split
    · exact Post.same h rfl fun _ => ⟨rfl, rfl⟩
    · next hnone =>
      split
      · exact Post.same h rfl fun _ => ⟨rfl, rfl⟩
      refine ⟨?_, fun j => ?_, fun j => ?_, fun j hj => ?_⟩
      · exact h.grow hn.1 (Option.not_isSome_iff_eq_none.1 hnone) rfl rfl rfl rfl rfl
      · dsimp only [modify]
        rw [update_same NxcBlock.refCount (by rfl) j]
        rfl
      · dsimp only [modify]
        rw [update_same NxcBlock.busy (by rfl) j]
        rfl
      · dsimp only [modify]
        refine ⟨update_same NxcBlock.map (by rfl) j, update_same NxcBlock.offset (by rfl) j, ?_⟩
        intro hd
        rw [update_apply]
        split
        · rfl
        · exact hd
  · exact Post.same h rfl fun _ => ⟨rfl, rfl⟩

theorem shrink_post (target : Nat) (ok : Bool) (n : Nat) :
    Post c (.inside (.shrink target ok n)) (c.shrink target ok n) := by
  unfold shrink
  dsimp only
  split
  · next hn =>
    split
    · exact Post.same h rfl fun _ => ⟨rfl, rfl⟩
    · next hfree =>
      simp only [not_or, not_not, Bool.not_eq_true, Option.isNone_eq_false_iff] at hfree
      obtain ⟨hdata, href, hbusy⟩ := hfree
      have hfreed := freeData_post h hn.1 (.inside (.shrink target ok (n + 1))) hdata href hbusy
      split
      · next hmap =>
        split
        · exact flushBlock_post h (Option.isSome_of_mem hmap) hbusy fun _ => ⟨rfl, rfl⟩
        · exact hfreed.moved (fun _ => rfl) fun _ => rfl
      · exact hfreed.moved (fun _ => rfl) fun _ => rfl
  · exact Post.same h rfl fun _ => ⟨rfl, rfl⟩

theorem invalidate_post (n : Nat) : Post c (.inside (.invalidate n)) (c.invalidate n) := by
  unfold invalidate
  dsimp only
  split
  · split
    · next hidle =>
      exact (retire_post h (.inside (.invalidate (n + 1))) hidle.2.2.1 hidle.2.2.2.1).moved
        (fun _ => rfl) fun _ => rfl
    · exact Post.same h rfl fun _ => ⟨rfl, rfl⟩
  · exact Post.same h rfl fun _ => ⟨rfl, rfl⟩

/-! ### Maps and ranges -/

theorem openMap_post (a : Answer B) (file : FileObject) (sizes : FileSizes) (pinAccess : Bool) :
    Post c (.inside (.openMap file sizes pinAccess)) (c.openMap a file sizes pinAccess) := by
  unfold openMap openPrivate
  dsimp only
  repeat' split
  all_goals exact Post.same h rfl fun _ => ⟨rfl, rfl⟩

theorem close_post (file : FileObject) (m : Nat)
    (k : Then B) : Post c (.inside (.close file m k)) (c.close file m k) := by
  have hresume := k.resume_free true 0
  unfold close
  split
  · exact Post.same h rfl hresume
  · have hnext := fun (p : Prop) [Decidable p] (file : FileObject) =>
      Pc.ite_free p (a := flushMap m 0 maxLong false (.written file k)) (fun _ => ⟨rfl, rfl⟩) hresume
    exact Post.same h rfl (hnext _ _)

theorem closeMap_post (file : FileObject) (truncate : Option Nat) (k : Then B) :
    Post c (.inside (.closeMap file truncate k)) (c.closeMap file truncate k) := by
  have hresume := k.resume_free true 0
  unfold closeMap
  split
  · exact Post.same h rfl hresume
  · split <;> exact Post.same h rfl fun _ => ⟨rfl, rfl⟩

theorem setFileSizes_post (file : FileObject) (sizes : FileSizes) :
    Post c (.inside (.setFileSizes file sizes)) (c.setFileSizes file sizes) := by
  unfold setFileSizes
  split
  · exact Post.same h rfl fun _ => ⟨rfl, rfl⟩
  · dsimp only
    split <;> exact Post.same h rfl fun _ => ⟨rfl, rfl⟩

/-- A piece of code that only decides what to do next. -/
theorem decide_post {pc pc' : Pc B} (hpc : pc.Free) (hpc' : pc'.Free) :
    Post c pc (c, pc') :=
  Post.same h rfl fun j =>
    ⟨(hpc' j).1.trans (hpc j).1.symm, (hpc' j).2.trans (hpc j).2.symm⟩

omit h [Fintype B] in
theorem flushCache_free (c : Cache B) (sectionPointer : Nat) (range : Option (Nat × Nat))
    (k : Then B) : (c.flushCache sectionPointer range k).Free := by
  unfold flushCache
  split
  · exact k.resume_free true 0
  · split <;> exact fun _ => ⟨rfl, rfl⟩

omit h [Fintype B] in
theorem decisions_free (c : Cache B) (sectionPointer : Nat) (range : Option (Nat × Nat))
    (uninit : Bool) (p : Purge) :
    c.flushAll.Free ∧ (c.purge sectionPointer range uninit).Free ∧ (c.purgeList p).Free ∧
      (c.purgeResume p).Free ∧ (c.purgeRange p).Free := by
  unfold flushAll purge purgeList purgeResume purgeRange
  dsimp only
  refine ⟨?_, ?_, ?_, ?_, ?_⟩ <;> repeat' split
  all_goals exact fun _ => ⟨rfl, rfl⟩

/-! ### Pins -/

section
variable [DecidableEq B]

/-- The reference of a BCB goes with it. -/
theorem put_post (b : B) (r : Reply B)
    (href : ∀ bcb ∈ c.bcbs b, 0 < (c.blocks bcb.block).refCount) :
    Post c (.inside (.put b r)) (c.put b r) := by
  unfold put
  split
  · exact Post.same h rfl fun _ => ⟨rfl, rfl⟩
  · next bcb hb =>
    have hpos := href bcb hb
    have hmapped := h.held bcb.block (Or.inl hpos)
    refine ⟨h.alter _ ⟨rfl, rfl, rfl⟩ fun _ => hmapped, fun j => ?_, fun j => ?_, fun j _ => ?_⟩
    · have hmoved := tally_update (onBlock j) c.bcbs b none
      rw [hb] at hmoved
      by_cases hj : j = bcb.block
      · subst hj
        simp only [putBlock, modify_self, onBlock, if_true] at hmoved ⊢
        simp only [Pc.holds, Work.holds]
        omega
      · simp only [putBlock, modify_of_ne c _ hj, onBlock, if_neg (Ne.symm hj)] at hmoved ⊢
        simp only [Pc.holds, Work.holds]
        omega
    · dsimp only [putBlock, modify]
      rw [update_same NxcBlock.busy (by rfl) j]
      rfl
    · have hplace : (c.blocks bcb.block).InPlace
          { c.blocks bcb.block with refCount := (c.blocks bcb.block).refCount - 1 } :=
        ⟨rfl, rfl, rfl⟩
      exact (hplace.update j).stays

omit h in
/-- A BCB changes, but not its block. -/
theorem tally_rebind {b : B} {bcb bcb' : NxcBcb} (hb : c.bcbs b = some bcb)
    (hblock : bcb'.block = bcb.block) (j : Slot) :
    tally (onBlock j) (update c.bcbs b (some bcb')) = tally (onBlock j) c.bcbs := by
  have hmoved := tally_update (onBlock j) c.bcbs b (some bcb')
  rw [hb] at hmoved
  simp only [onBlock, hblock] at hmoved
  omega

theorem unpinData_post (b : B) (r : Reply B) : Post c (.unpinning b r) (c.unpinData b r) := by
  unfold unpinData
  split
  · exact Post.same h rfl fun _ => ⟨rfl, rfl⟩
  · next bcb hb =>
    refine ⟨h, fun j => ?_, fun j => ?_, fun j _ => .refl _⟩
    · have htally : tally (onBlock j) (update c.bcbs b
          (some { bcb with refCount := bcb.refCount - 1, pinCount := bcb.pinCount - 1 })) =
          tally (onBlock j) c.bcbs := tally_rebind hb (by rfl) j
      rw [htally]
      split <;> rfl
    · split <;> rfl

/-- The reference of the call becomes the reference of the BCB. -/
theorem fillBcb_post (a : Answer B) (g : Get B) (i : Slot)
    (href : 0 < (c.blocks i).refCount) : Post c (.filling g i) (c.fillBcb a g i) := by
  have hstay : Post c (.filling g i) (c, .filling g i) := Post.same h rfl fun _ => ⟨rfl, rfl⟩
  have hmapped := h.held i (Or.inl href)
  unfold fillBcb
  split
  · next offset length pinned zero old b _ _ =>
    split
    · exact hstay
    · next hfree =>
      have hnone : c.bcbs b = none := Option.not_isSome_iff_eq_none.1 hfree
      have hbound : ∀ (bcb : NxcBcb) (pc' : Pc B), bcb.block = i →
          (pc'.Free) → ∀ blocks,
          Table blocks c.lru c.activeBlocks →
          (∀ j, (blocks j).refCount = (c.blocks j).refCount ∧
            (blocks j).busy = (c.blocks j).busy ∧ (c.blocks j).Stays (blocks j)) →
          Post c (.filling g i)
            ({ c with bcbs := update c.bcbs b (some bcb), blocks := blocks }, pc') := by
        intro bcb pc' hblock hpc' blocks htable hsame
        refine ⟨htable, fun j => ?_, fun j => ?_, fun j _ => (hsame j).2.2⟩
        · have hmoved := tally_update (onBlock j) c.bcbs b (some bcb)
          rw [hnone] at hmoved
          simp only [onBlock, hblock] at hmoved
          rw [(hsame j).1, (hpc' j).1]
          simp only [Pc.holds]
          omega
        · rw [(hsame j).2.1, (hpc' j).2]
          rfl
      dsimp only
      split
      · have hplace : (c.blocks i).InPlace { c.blocks i with
            data := (c.blocks i).data.map fun m => patch m (offset - g.offset) length fun _ => 0 } :=
          ⟨rfl, rfl, by simp⟩
        refine hbound _ _ rfl ?_ _ (h.alter i hplace fun _ => hmapped) fun j => ?_
        · cases old <;> exact fun _ => ⟨rfl, rfl⟩
        · exact ⟨update_same NxcBlock.refCount (by rfl) j, update_same NxcBlock.busy (by rfl) j,
            (hplace.update j).stays⟩
      · refine hbound _ _ rfl ?_ _ h fun j => ⟨rfl, rfl, .refl _⟩
        cases old <;> exact fun _ => ⟨rfl, rfl⟩
  · exact hstay

/-- What a thread holds is there. -/
structure Backed (c : Cache B) (pc : Pc B) : Prop where
  refs : ∀ i, 0 < pc.holds i → 0 < (c.blocks i).refCount
  busy : ∀ i, 0 < pc.moves i → (c.blocks i).busy = true
  bcbs : ∀ b bcb, c.bcbs b = some bcb → 0 < (c.blocks bcb.block).refCount

theorem execute_post (a : Answer B) (w : Work B)
    (hpc : c.Backed (.inside w)) : Post c (.inside w) (c.execute a w) := by
  have hidle := c.decisions_free
  cases w with
  | lookup g => exact lookup_post h g
  | claim g => exact claim_post h g
  | readDone io g ok got =>
    refine readDone_post h (hpc.refs _ ?_) (hpc.busy _ ?_)
    · simp [Pc.holds, Work.holds]
    · simp [Pc.moves, Work.moves]
  | use g i =>
    refine useBlock_post h a (hpc.refs _ ?_)
    simp [Pc.holds, Work.holds]
  | writeDone io k ok got =>
    refine writeDone_post h (hpc.refs _ ?_) (hpc.busy _ ?_)
    · simp [Pc.holds, Work.holds]
    · simp [Pc.moves, Work.moves]
  | scan f n => exact scan_post h f n
  | flushCache sectionPointer range k =>
    exact decide_post h (fun _ => ⟨rfl, rfl⟩) (c.flushCache_free sectionPointer range k)
  | flushAll => exact decide_post h (fun _ => ⟨rfl, rfl⟩) (hidle 0 none true ⟨0, 0, none⟩).1
  | openMap file sizes pinAccess => exact openMap_post h a file sizes pinAccess
  | closeMap file truncate k => exact closeMap_post h file truncate k
  | close file m k => exact close_post h file m k
  | setFileSizes file sizes => exact setFileSizes_post h file sizes
  | purge sectionPointer range uninit =>
    exact decide_post h (fun _ => ⟨rfl, rfl⟩)
      (hidle sectionPointer range uninit ⟨0, 0, none⟩).2.1
  | purgeList p =>
    exact decide_post h (fun _ => ⟨rfl, rfl⟩) (hidle 0 none true p).2.2.1
  | purgeResume p =>
    exact decide_post h (fun _ => ⟨rfl, rfl⟩) (hidle 0 none true p).2.2.2.1
  | purgeRange p =>
    exact decide_post h (fun _ => ⟨rfl, rfl⟩) (hidle 0 none true p).2.2.2.2
  | put b r => exact put_post h b r (hpc.bcbs b)
  | grow target n => exact grow_post h a target n
  | shrink target ok n => exact shrink_post h target ok n
  | invalidate n => exact invalidate_post h n

omit [DecidableEq B] in
/-- The bytes of a block change. -/
theorem bytes_post {j : Slot} (f : NxcBlock → NxcBlock)
    (hplace : (c.blocks j).InPlace (f (c.blocks j)))
    (hrefs : (f (c.blocks j)).refCount = (c.blocks j).refCount)
    (hbusy : (f (c.blocks j)).busy = (c.blocks j).busy) {pc pc' : Pc B}
    (hholds : ∀ i, pc'.holds i = pc.holds i) (hmoves : ∀ i, pc'.moves i = pc.moves i) :
    Post c pc (c.modify j f, pc') := by
  refine Post.modify h j hplace ?_ (fun i _ => ⟨hholds i, hmoves i⟩) ?_ ?_
  · rw [hrefs, hbusy]
    exact h.held j
  · rw [hrefs, hholds]
  · rw [hbusy, hmoves]

theorem advance_post (a : Answer B) (pc : Pc B)
    (hpc : c.Backed pc) : Post c pc (c.advance a pc) := by
  cases pc with
  | ready r | outside w | closing p file => exact Post.same h rfl fun _ => ⟨rfl, rfl⟩
  | inside w => exact execute_post h a w hpc
  | reading io g =>
    dsimp only [advance]
    split
    · exact bytes_post h _ ⟨rfl, rfl, by simp⟩ rfl rfl (fun _ => rfl) fun _ => rfl
    · exact Post.same h rfl fun _ => ⟨rfl, rfl⟩
  | writing io k =>
    dsimp only [advance]
    split <;> exact Post.same h rfl fun _ => ⟨rfl, rfl⟩
  | filling g i =>
    refine fillBcb_post h a g i (hpc.refs i ?_)
    simp [Pc.holds]
  | unpinning b r => exact unpinData_post h b r
  | zeroing file current stop =>
    dsimp only [advance, zeroFile]
    split
    · split <;> exact Post.same h rfl fun _ => ⟨rfl, rfl⟩
    · exact Post.same h rfl fun _ => ⟨rfl, rfl⟩

end

end

end Cache

/-! ## Runs -/

section
variable {B : Type}

theorem Cache.startUse_free (c : Cache B) (file : FileObject) (wait : Bool) (u : Use B) :
    (c.startUse file wait u).Free := by
  unfold Cache.startUse
  split
  · exact fun _ => ⟨rfl, rfl⟩
  · exact u.more_free _ wait fun _ _ => ⟨rfl, rfl⟩

theorem Cache.pinCommon_free (c : Cache B) {file : FileObject} {offset length : Nat}
    {wait room pinned zero : Bool} {old : Option B} :
    (c.pinCommon file offset length wait room pinned zero old).Free := by
  unfold Cache.pinCommon
  split
  · exact fun _ => ⟨rfl, rfl⟩
  · exact c.startUse_free file wait _

theorem Cache.pinRead_free (c : Cache B) {file : FileObject} {offset length : Nat}
    {wait room zero : Bool} {old : Option B} :
    (c.pinRead file offset length wait room zero old).Free := by
  unfold Cache.pinRead
  split
  · exact fun _ => ⟨rfl, rfl⟩
  · split
    · exact c.pinCommon_free
    · exact fun _ => ⟨rfl, rfl⟩

/-- A call holds nothing before it takes the mutex. -/
theorem Cache.start_free (c : Cache B) (call : Call B) : (c.start call).Free := by
  cases call with
  | copyRead file offset length wait buffer | copyWrite file offset length wait buffer =>
    exact c.startUse_free file wait _
  | zeroData file begin stop wait =>
    dsimp only [Cache.start]
    split
    · exact c.startUse_free file wait _
    · exact fun _ => ⟨rfl, rfl⟩
  | mapData file offset length wait room => exact c.pinCommon_free
  | pinRead file offset length wait room | pinMappedData file offset length wait room old
  | preparePinWrite file offset length zero wait room => exact c.pinRead_free
  | unpinRepinnedBcb b writeThrough =>
    dsimp only [Cache.start]
    repeat' split
    all_goals exact fun _ => ⟨rfl, rfl⟩
  | _ => exact fun _ => ⟨rfl, rfl⟩

end

section
variable {T B : Type} [Fintype T] [Fintype B]

/-- The table is well formed, and the references and busy flags of the blocks are those
of the BCBs and the calls in progress. -/
structure Sound (s : State T B) : Prop where
  table : Table s.cache.blocks s.cache.lru s.cache.activeBlocks
  refs : ∀ i, (s.cache.blocks i).refCount =
    tally (onBlock i) s.cache.bcbs + tally (Pc.holds i) s.pc
  busy : ∀ i, (s.cache.blocks i).busy.toNat = tally (Pc.moves i) s.pc

/-- No block that is pinned is given away. -/
def Keeps (c c' : Cache B) : Prop :=
  ∀ i, (c.blocks i).Pinned → (c.blocks i).Stays (c'.blocks i)

namespace Sound

variable {s : State T B}

theorem backed (h : Sound s) (t : T) : s.cache.Backed (s.pc t) where
  refs i hi := by
    have hle := le_tally (Pc.holds i) s.pc t
    have := h.refs i
    omega
  busy i hi := by
    have hle := le_tally (Pc.moves i) s.pc t
    have hbusy := h.busy i
    cases hb : (s.cache.blocks i).busy
    · rw [hb, Bool.toNat_false] at hbusy
      omega
    · rfl
  bcbs b bcb hb := by
    have hle := le_tally (onBlock bcb.block) s.cache.bcbs b
    rw [hb] at hle
    simp only [onBlock, if_true] at hle
    have := h.refs bcb.block
    omega

/-- The bytes of a block change, or a flag that says something about them. -/
theorem bytes (h : Sound s) (j : Slot) (f : NxcBlock → NxcBlock)
    (hplace : (s.cache.blocks j).InPlace (f (s.cache.blocks j)))
    (hrefs : (f (s.cache.blocks j)).refCount = (s.cache.blocks j).refCount)
    (hbusy : (f (s.cache.blocks j)).busy = (s.cache.blocks j).busy) :
    Sound ⟨s.cache.modify j f, s.pc⟩ ∧ Keeps s.cache (s.cache.modify j f) := by
  have hpost : Post s.cache (.ready .done) (s.cache.modify j f, .ready .done) :=
    Cache.bytes_post h.table f hplace hrefs hbusy (fun _ => rfl) fun _ => rfl
  refine ⟨⟨hpost.table, fun i => ?_, fun i => ?_⟩, hpost.stays⟩
  · have hone := hpost.refs i
    have hbefore := h.refs i
    dsimp only at hone ⊢
    omega
  · have hone := hpost.busy i
    have hbefore := h.busy i
    dsimp only at hone ⊢
    omega

variable [DecidableEq T]

/-- A step of one thread that keeps its balance keeps those of the whole system. -/
theorem after (h : Sound s) {t : T} {c : Cache B} {pc : Pc B}
    (hpost : Post s.cache (s.pc t) (c, pc)) : Sound ⟨c, update s.pc t pc⟩ where
  table := hpost.table
  refs i := by
    have hone := hpost.refs i
    have hall := tally_update (Pc.holds i) s.pc t pc
    have hbefore := h.refs i
    dsimp only at hone ⊢
    omega
  busy i := by
    have hone := hpost.busy i
    have hall := tally_update (Pc.moves i) s.pc t pc
    have hbefore := h.busy i
    dsimp only at hone ⊢
    omega

variable [DecidableEq B]

/-- A device moves a byte. -/
theorem transfer (h : Sound s) (t : T) (x : Nat) :
    Sound (s.apply (.transfer t x)) ∧ Keeps s.cache (s.apply (.transfer t x)).cache := by
  dsimp only [State.apply]
  cases hpc : s.pc t with
  | reading io g =>
    have hpost : Post s.cache (s.pc t)
        (s.cache.receive io x, .reading { io with sent := update io.sent x true } g) := by
      rw [hpc]
      exact Cache.bytes_post h.table _ ⟨rfl, rfl, by simp⟩ rfl rfl (fun _ => rfl) fun _ => rfl
    exact ⟨h.after hpost, hpost.stays⟩
  | writing io k =>
    have hpost : Post s.cache (s.pc t)
        (s.cache.send io x, .writing { io with sent := update io.sent x true } k) := by
      rw [hpc]
      exact Post.same h.table rfl fun _ => ⟨rfl, rfl⟩
    exact ⟨h.after hpost, hpost.stays⟩
  | _ => exact ⟨h, fun _ _ => .refl _⟩

/-- The holder of a BCB changes the bytes of its block or the BCB itself. -/
theorem bcb (h : Sound s) (b : B) (x : Nat) (v : UInt8) :
    ∀ a ∈ ([.write b x v, .setDirty b, .repin b] : List (Act T B)),
      Sound (s.apply a) ∧ Keeps s.cache (s.apply a).cache := by
  have hsame : Sound s ∧ Keeps s.cache s.cache := ⟨h, fun _ _ => .refl _⟩
  intro a ha
  simp only [List.mem_cons, List.not_mem_nil, or_false] at ha
  rcases ha with rfl | rfl | rfl
  · dsimp only [State.apply, Cache.writeByte]
    split
    · exact hsame
    · exact h.bytes _ _ ⟨rfl, rfl, by simp⟩ rfl rfl
  · dsimp only [State.apply, Cache.setDirtyPinnedData]
    split
    · exact hsame
    · exact h.bytes _ _ ⟨rfl, rfl, rfl⟩ rfl rfl
  dsimp only [State.apply, Cache.repinBcb]
  split
  · exact hsame
  · next bcb hb =>
    refine ⟨⟨h.table, fun i => ?_, h.busy⟩, fun _ _ => .refl _⟩
    have htally : tally (onBlock i) (update s.cache.bcbs b
        (some { bcb with refCount := bcb.refCount + 1 })) = tally (onBlock i) s.cache.bcbs :=
      Cache.tally_rebind hb (by rfl) i
    rw [show (s.cache.blocks i).refCount = _ from h.refs i, htally]

/-- Every act keeps the table sound and the pinned blocks in their places. -/
theorem step (h : Sound s) (a : Act T B) (ha : s.Allowed a) :
    Sound (s.apply a) ∧ Keeps s.cache (s.apply a).cache := by
  cases a with
  | call t call =>
    obtain ⟨⟨r, hr⟩, -⟩ := ha
    have hpost : Post s.cache (s.pc t) (s.cache, s.cache.start call) := by
      rw [hr]
      exact Cache.decide_post h.table (fun _ => ⟨rfl, rfl⟩) (s.cache.start_free call)
    exact ⟨h.after hpost, hpost.stays⟩
  | step t a =>
    have hpost := Cache.advance_post h.table a (s.pc t) (h.backed t)
    exact ⟨h.after hpost, hpost.stays⟩
  | transfer t x => exact h.transfer t x
  | write b x v => exact h.bcb b x v _ (by simp)
  | setDirty b | repin b => exact h.bcb b 0 0 _ (by simp)
  | scribble m r => exact ⟨⟨h.table, h.refs, h.busy⟩, fun _ _ => .refl _⟩

end Sound

/-- At boot four blocks and the reserve have buffers. -/
theorem State.Initial.sound {s : State T B} (h : s.Initial) : Sound s := by
  have hblock : ∀ i, (s.cache.blocks i).map = none ∧ (s.cache.blocks i).refCount = 0 ∧
      (s.cache.blocks i).busy = false ∧
      ((s.cache.blocks i).data.isSome ↔ i.val < minBlocks ∨ maxBlocks ≤ i.val) := by
    intro i
    obtain ⟨data, hi⟩ := h.blocks i
    rw [hi]
    refine ⟨rfl, rfl, rfl, ?_⟩
    split
    · next hlow => exact iff_of_true rfl hlow
    · next hhigh => exact iff_of_false (by simp) hhigh
  constructor
  · constructor
    · intro i j m hi
      rw [(hblock i).1] at hi
      cases hi
    · rw [h.lru]
      exact List.nodup_nil
    · intro i
      rw [h.lru, (hblock i).1]
      exact iff_of_false List.not_mem_nil (by simp)
    · intro i hi
      rw [(hblock i).1] at hi
      cases hi
    · intro i hi
      rw [(hblock i).2.1, (hblock i).2.2.1] at hi
      exact absurd hi (by decide)
    · simp only [fun i => (hblock i).2.2.2]
      rw [h.activeBlocks]
      decide
  · intro i
    have hbcbs : tally (onBlock i) s.cache.bcbs = 0 := by
      rw [funext h.bcbs, tally_const]
      rfl
    have hpcs : tally (Pc.holds i) s.pc = 0 := by
      refine Finset.sum_eq_zero fun t _ => ?_
      obtain ⟨r, hr⟩ := h.pc t
      rw [hr]
      rfl
    rw [(hblock i).2.1, hbcbs, hpcs]
  · intro i
    have hpcs : tally (Pc.moves i) s.pc = 0 := by
      refine Finset.sum_eq_zero fun t _ => ?_
      obtain ⟨r, hr⟩ := h.pc t
      rw [hr]
      rfl
    rw [(hblock i).2.2.1, hpcs]
    rfl

variable [DecidableEq T] [DecidableEq B]

theorem Sound.reachable {s : State T B} (h : Reachable State.Initial Step s) : Sound s := by
  refine Reachable.invariant ?_ ?_ h
  · intro s hs
    exact hs.sound
  · rintro s a s' hs ⟨ha, rfl⟩
    exact (hs.step a ha).1

/-- What the cache keeps under any interleaving. -/
structure Structured (s : State T B) : Prop where
  single : ∀ i j m, (s.cache.blocks i).map = some m → (s.cache.blocks j).map = some m →
    (s.cache.blocks i).offset = (s.cache.blocks j).offset →
    (s.cache.blocks i).data.isSome → (s.cache.blocks j).data.isSome → i = j
  lruOnce : s.cache.lru.Nodup
  lru : ∀ i, i ∈ s.cache.lru ↔ (s.cache.blocks i).map ≠ none
  activeBlocks : s.cache.activeBlocks = (Finset.univ.filter fun i : Slot =>
    i.val < maxBlocks ∧ (s.cache.blocks i).data.isSome).card
  refCount : ∀ i, (s.cache.blocks i).refCount =
    tally (onBlock i) s.cache.bcbs + tally (Pc.holds i) s.pc

/-- In every state any run of any number of threads leads to, the table is well formed
and no step gives away a block that is referenced or busy. -/
theorem cache_structured {s : State T B} (h : Reachable State.Initial Step s) :
    Structured s ∧ ∀ a s', Step s a s' → ∀ i,
      0 < (s.cache.blocks i).refCount ∨ (s.cache.blocks i).busy = true →
        (s'.cache.blocks i).map = (s.cache.blocks i).map ∧
          (s'.cache.blocks i).offset = (s.cache.blocks i).offset ∧
          ((s.cache.blocks i).data.isSome → (s'.cache.blocks i).data.isSome) := by
  have hs := Sound.reachable h
  constructor
  · constructor
    · intro i j m hi hj ho _ _
      exact hs.table.single i j m hi hj ho
    · exact hs.table.nodup
    · intro i
      rw [hs.table.mem, Option.isSome_iff_ne_none]
    · exact hs.table.count
    · exact hs.refs
  · rintro a s' ⟨ha, rfl⟩ i hi
    have hstays := (hs.step a ha).2 i hi
    exact ⟨hstays.map, hstays.offset, hstays.data⟩

end

/-- A block is read in. -/
def State.reading : State Unit Unit :=
  (((State.opened.apply (.call () (.copyRead ⟨0, 0, false⟩ 0 10 true fun _ => 0))).apply
    (.step () (State.calm 0))).apply (.step () (State.calm 0))).apply (.step () (State.calm 0))

theorem State.reading_reached : Reachable State.Initial Step State.reading :=
  .next (.step () (State.calm 0))
    (.next (.step () (State.calm 0))
      (.next (.step () (State.calm 0))
        (.next (.call () (.copyRead ⟨0, 0, false⟩ 0 10 true fun _ => 0)) State.opened_reached
          ⟨⟨⟨.done, rfl⟩, nofun⟩, rfl⟩)
        ⟨State.allowed_alone _ _, rfl⟩)
      ⟨State.allowed_alone _ _, rfl⟩)
    ⟨State.allowed_alone _ _, rfl⟩

theorem cache_structured_reading :
    (State.reading.cache.blocks 0).busy = true ∧ (State.reading.cache.blocks 0).map = some 1 ∧
      Structured State.reading :=
  ⟨by decide +kernel, by decide +kernel, (cache_structured State.reading_reached).1⟩

end Roswell.Ports.FileCache
