import Mathlib
import Roswell.Ports.FatGrowth

/-!
# What an allocation request leaves behind

Two questions about `VfatSetAllocationSizeInformation`.  When the disk fills up
while a file grows, is everything as it was before?  The undo cuts the chain
behind the cluster that the recorded allocation ends with, which need not be the
last one of the chain.  And does a request for an allocation leave the end of
the file alone?  The branch that shrinks the allocation sets the file size as
well, whichever of the two was asked for.
-/

namespace Roswell.Ports.FatAllocation

open Verified.Word Verified.Chains Fat Function
open FatGrowth (OpenFile emptyFile)

variable {d d' : DeviceExt} {chains : Nat → List Nat} {i : Nat} {fcb fcb' : Fcb} {l : List Nat}

/-! ## The end of file -/

/-- A success of an allocation request keeps the file size where the request is not below
it, and never raises it. -/
def KeepsEndOfFile (fcb fcb' : Fcb) (size : Nat) : Prop :=
  (fcb.fileSize ≤ size → fcb'.fileSize = fcb.fileSize) ∧ fcb'.fileSize ≤ fcb.fileSize

/-- The request leaves at least one of the allocated clusters, but not all of them, beyond
the end of the file. -/
def TrimsSlack (fcb : Fcb) (clusterSize size : Nat) : Prop :=
  fcb.fileSize < size ∧ size ≤ fcb.allocationSize % 2 ^ 32 ∧
    wadd size clusterSize ≤ fcb.allocationSize % 2 ^ 32

theorem shrink_fileSize {size junk : Nat} (h : shrink d fcb size junk = some (d', fcb')) :
    fcb'.fileSize = if fcb.isDirectory then fcb.fileSize else size := by
  unfold shrink at h
  dsimp only at h
  split_ifs at h
  · obtain ⟨u, -, hu⟩ := Option.map_eq_some_iff.1 h
    cases hu
    rfl
  · obtain ⟨u, -, hu⟩ := Option.map_eq_some_iff.1 h
    cases hu
    rfl

/-- Only a request for an allocation that does not trim the old one keeps the file size. -/
theorem success_fileSize {request : Request}
    (h : vfatSetAllocationSizeInformation d fcb request = some (d', fcb', .success)) :
    fcb'.fileSize = if fcb.isDirectory ∨ request.allocationOnly ∧
        (fcb.allocationSize % 2 ^ 32 < request.lowPart.toNat ∨ fcb.allocationSize % 2 ^ 32 <
          wadd request.lowPart.toNat d.fatInfo.bytesPerCluster) then fcb.fileSize
      else request.lowPart.toNat := by
  revert h
  fun_cases vfatSetAllocationSizeInformation d fcb request with
  | case1 | case6 => rintro ⟨⟩
  | case2 newSize _ hequal =>
    rintro ⟨⟩
    rw [show request.lowPart.toNat = fcb.fileSize from hequal.symm, ite_self]
  | case3 _ newSize _ _ _ hgrow _ _ hf =>
    obtain ⟨hsize, hdir, -⟩ := grow_kept hf
    rintro ⟨⟩
    cases hkind : request.allocationOnly with
    | true =>
      rw [if_pos rfl, if_pos (.inr ⟨rfl, .inl hgrow⟩)]
      exact hsize
    | false => simp [newSize, updateFileSize, hsize, hdir]
  | case4 _ _ _ _ _ hfailed => exact fun h => (hfailed d' fcb' h).elim
  | case5 _ _ _ _ _ hgrow htrim =>
    intro h
    obtain ⟨⟨u, f⟩, hf, hu⟩ := Option.map_eq_some_iff.1 h
    obtain ⟨rfl, rfl⟩ : u = d' ∧ f = fcb' := by simpa using hu
    rw [shrink_fileSize hf]
    exact if_congr (or_iff_left fun hkeep => hkeep.2.elim hgrow htrim.not_gt).symm rfl rfl
  | case7 _ newSize _ _ _ _ htrim =>
    rintro ⟨⟩
    cases hkind : request.allocationOnly with
    | true => rw [if_pos rfl, if_pos (.inr ⟨rfl, .inr (Nat.lt_of_not_le htrim)⟩)]
    | false => simp [newSize, updateFileSize]

/-- A successful allocation request for a file keeps to its end exactly when it does not trim
clusters that the file has beyond it. -/
theorem allocation_keeps_endOfFile {request : Request} (hfile : fcb.isDirectory = false)
    (hkind : request.allocationOnly = true)
    (h : vfatSetAllocationSizeInformation d fcb request = some (d', fcb', .success)) :
    KeepsEndOfFile fcb fcb' request.lowPart.toNat ↔
      ¬TrimsSlack fcb d.fatInfo.bytesPerCluster request.lowPart.toNat := by
  unfold KeepsEndOfFile TrimsSlack
  rw [success_fileSize h, hkind, hfile]
  simp only [Bool.false_eq_true, false_or, true_and]
  split <;> omega

theorem allocation_keeps_endOfFile_emptyFile : ∃ d' fcb',
    vfatSetAllocationSizeInformation emptyFile.device emptyFile.fcb
      (OpenFile.sizeRequest 16384 true 0) = some (d', fcb', .success) ∧
    KeepsEndOfFile emptyFile.fcb fcb' 16384 := by
  obtain ⟨d', fcb', h⟩ : ∃ d' fcb', vfatSetAllocationSizeInformation emptyFile.device
      emptyFile.fcb (OpenFile.sizeRequest 16384 true 0) = some (d', fcb', .success) :=
    ⟨_, _, rfl⟩
  refine ⟨d', fcb', h, (allocation_keeps_endOfFile rfl rfl h).2 ?_⟩
  exact fun ht => absurd ht.2.1 (by decide)

/-- The allocation of an empty file is set to two clusters and then to one, and its end of
file is now behind the first. -/
theorem allocation_raises_endOfFile : ∃ t u,
    emptyFile.apply (.setAllocation 16384 0) = some (t, .success) ∧
    t.apply (.setAllocation 8192 0) = some (u, .success) ∧
    t.fcb.fileSize = 0 ∧ u.fcb.fileSize = 8192 :=
  ⟨_, _, rfl, rfl, rfl, rfl⟩

/-! ## Undoing a growth -/

/-- The file and the table are as they were: every cluster that was free is free, and every
chain is linked as before. -/
structure Undone (d : DeviceExt) (fcb : Fcb) (d' : DeviceExt) (fcb' : Fcb) : Prop where
  first : fcb'.firstCluster = fcb.firstCluster
  size : fcb'.fileSize = fcb.fileSize
  allocation : fcb'.allocationSize = fcb.allocationSize
  links : ∀ c, d.fatInfo.IsCluster c → link d' c = link d c

/-- No cluster of the file lies behind the one that its recorded allocation ends with. -/
def Whole (d : DeviceExt) (fcb : Fcb) : Prop :=
  fcb.firstCluster = 0 ∨ ∀ l, ChainOf d (anchor fcb) l → l.length ≤ anchorSteps d fcb + 1

/-- The chains determine the links. -/
theorem link_eq_of_ok (h : Ok d chains) (h' : Ok d' chains) (hinfo : d'.fatInfo = d.fatInfo)
    {c : Nat} (hc : d.fatInfo.IsCluster c) : link d' c = link d c := by
  by_cases hused : ∃ j, c ∈ chains j
  · obtain ⟨j, hj⟩ := hused
    obtain ⟨l, r, hl⟩ := List.append_of_mem hj
    have hchain := h.forest.chain j
    have hchain' := h'.forest.chain j
    rw [hl] at hchain hchain'
    rw [hchain.link, hchain'.link]
  · have hfree : link d c = .free := by
      by_contra hne
      exact hused (h.forest.cover hc hne)
    have hfree' : link d' c = .free := by
      by_contra hne
      exact hused (h'.forest.cover (hinfo ▸ hc) hne)
    rw [hfree, hfree']

theorem writeCluster_end_link (h : Table d) (new : Nat) :
    link (writeCluster d endOfChain new) = link d := by
  obtain ⟨hinfo, hfat⟩ := writeCluster_device d endOfChain new
  unfold link
  rw [hinfo, hfat, DeviceExt.write, if_neg (Ok.not_holds_end h)]

theorem growEmpty_undone (h : Ok d chains) (hi : chains i = []) {size : Nat}
    (hfail : growEmpty d fcb size = some (d', fcb', .diskFull)) : Undone d fcb d' fcb' := by
  rcases growEmpty_spec h hi fcb size with ⟨u, first, rest, hgrow, -⟩ | ⟨-, u, hgrow, hinfo, hok⟩
  · rw [hgrow] at hfail
    cases hfail
  · rw [hgrow] at hfail
    cases hfail
    exact ⟨rfl, rfl, rfl, fun c hc => link_eq_of_ok h hok hinfo hc⟩

theorem follow_from_end (h : Table d) (n : Nat) :
    follow true n d endOfChain = (d, .success, some endOfChain) ∨
      follow true n d endOfChain = (d, .fileCorruptError, none) := by
  cases n with
  | zero => exact .inl rfl
  | succ n =>
    have hnext := Ok.getNextCluster_end h
    unfold getNextCluster at hnext
    rw [if_neg (by decide)] at hnext
    refine .inr ?_
    rw [follow, if_pos rfl, getNextClusterExtend, if_neg (by decide), hnext]
    rfl

theorem cutAfter_end (h : Table d) {first : Nat} (hfirst : first ≠ 1) :
    cutAfter d first endOfChain = some (writeCluster d endOfChain endOfChain) := by
  unfold cutAfter nextCluster
  rw [if_neg hfirst, if_neg Bool.false_ne_true, Ok.getNextCluster_end h]
  dsimp only
  rw [show rounds = (rounds - 1) + 1 from rfl, freeClusters, if_neg (by simp)]

theorem growFrom_undone (h : Ok d chains) (hfirst : 2 ≤ fcb.firstCluster)
    (hfits : Fits fcb (chains i)) {size : Nat}
    (hfail : growFrom d fcb size = some (d', fcb', .diskFull)) :
    Undone d fcb d' fcb' ↔ ∀ l, ChainOf d (anchor fcb) l → l.length ≤ anchorSteps d fcb + 1 := by
  obtain ⟨k, hk⟩ := hfits.anchor_at hfirst
  have htwo := (h.isCluster (split_at hk)).1
  simp only [chainOf_at h hk, forall_eq, List.length_drop]
  by_cases hin : k + anchorSteps d fcb < (chains i).length
  · -- the growth starts at a cluster of the chain, and what was behind it is lost
    obtain ⟨b, hb⟩ := exists_at hin
    have hsplit := split_at hb
    rcases growFrom_spec h (show fcb.firstCluster ≠ 1 by omega) hk hb size with
      ⟨u, more, hgrow, -⟩ | ⟨-, u, hgrow, hinfo, hok⟩
    · rw [hgrow] at hfail
      cases hfail
    rw [hgrow] at hfail
    cases hfail
    have hchain := h.forest.chain i
    rw [hsplit] at hchain
    have hchain' := hok.forest.chain i
    rw [update_self] at hchain'
    constructor
    · intro hundone
      have hlast := hundone.links b (h.isCluster hsplit)
      rw [hchain'.link, hchain.link] at hlast
      cases hrest : (chains i).drop (k + anchorSteps d fcb + 1) with
      | nil =>
        have hle := List.drop_eq_nil_iff.1 hrest
        omega
      | cons c r =>
        rw [hrest] at hlast
        cases hlast
    · intro hle
      have hrest := List.drop_eq_nil_of_le (show (chains i).length ≤ k + anchorSteps d fcb + 1 by omega)
      rw [hrest] at hsplit
      rw [← hsplit, update_eq_self] at hok
      exact ⟨rfl, rfl, rfl, fun c hc => link_eq_of_ok h hok hinfo hc⟩
  unfold growFrom at hfail
  rw [lastAllocated_eq (by omega), h.follow_eq hk, if_neg hin] at hfail
  split_ifs at hfail
  · -- it starts at the end mark, where there is nothing to extend or to cut
    dsimp only at hfail
    rw [offsetToCluster_of_ne (by decide)] at hfail
    rcases follow_from_end h.table (wsub (alignDown (wsub size 1) d.fatInfo.bytesPerCluster)
      (lastAllocatedOffset d fcb) / d.fatInfo.bytesPerCluster) with hfollow | hfollow
    all_goals
      rw [hfollow] at hfail
      dsimp only at hfail
      rw [if_pos (by simp), cutAfter_end h.table (by omega)] at hfail
      cases hfail
      refine iff_of_true ⟨rfl, rfl, rfl, fun c _ => ?_⟩ (by omega)
      rw [writeCluster_end_link h.table]
  · cases hfail

/-- A growth that fails for want of a cluster is undone exactly when the chain ends where
the recorded allocation does. -/
theorem diskFull_undone {v : Volume} (hv : Start v) (hfile : v.files i = some fcb)
    (hroot : fcb.firstCluster ≠ 1) {request : Request}
    (hgrow : fcb.allocationSize % 2 ^ 32 < request.lowPart.toNat)
    (hfail : vfatSetAllocationSizeInformation v.device fcb request =
      some (d', fcb', .diskFull)) :
    Undone v.device fcb d' fcb' ↔ Whole v.device fcb := by
  obtain ⟨chains, hs⟩ := hv.sound
  have hfits := hs.file hfile
  revert hfail
  fun_cases vfatSetAllocationSizeInformation v.device fcb request with
  | case1 | case2 | case3 | case6 | case7 => rintro ⟨⟩
  | case4 =>
    intro hfailed
    by_cases hfirst : fcb.firstCluster = 0
    · rw [if_pos hfirst] at hfailed
      exact iff_of_true
        (growEmpty_undone hs.ok (hfits.heads.eq_nil (by omega)) hfailed) (.inl hfirst)
    · rw [if_neg hfirst] at hfailed
      rw [growFrom_undone hs.ok (by omega) hfits hfailed, Whole, or_iff_right hfirst]
  | case5 _ _ _ _ _ hnot => exact absurd hgrow hnot

/-- Two hundred clusters are asked for, of the hundred that the volume has. -/
def tooMany : Request := ⟨0, 1638400, true, true, 0⟩

theorem tooMany_fails : (vfatSetAllocationSizeInformation smallVolume.device smallFile
    tooMany).map (fun r => r.2.2) = some .diskFull := by
  decide +kernel

theorem diskFull_undone_smallFile : ∃ d' fcb', vfatSetAllocationSizeInformation
    smallVolume.device smallFile tooMany = some (d', fcb', .diskFull) ∧
    Undone smallVolume.device smallFile d' fcb' := by
  obtain ⟨d', fcb', h⟩ : ∃ d' fcb', vfatSetAllocationSizeInformation smallVolume.device
      smallFile tooMany = some (d', fcb', .diskFull) := by
    obtain ⟨⟨d', fcb', status⟩, h, rfl⟩ := Option.map_eq_some_iff.1 tooMany_fails
    exact ⟨d', fcb', h⟩
  refine ⟨d', fcb', h, (diskFull_undone (i := 1) smallVolume_start rfl (by decide) (by decide) h).2
    (.inr ?_)⟩
  rintro l ⟨hl, hheads⟩
  obtain ⟨r, rfl⟩ := hheads.eq_cons (by decide)
  have hlink : link smallVolume.device 32 = .last := by decide +kernel
  cases r with
  | nil => exact Nat.le_add_left 1 _
  | cons c r => exact absurd (hl.1.symm.trans hlink) nofun

/-- A file with one byte gets a second cluster, and is closed and opened again.  A growth
that the disk has no room for then frees that cluster. -/
theorem diskFull_frees_slack : ∃ t u v,
    emptyFile.apply (.setEndOfFile 1 0) = some (t, .success) ∧
    t.apply (.setAllocation 16384 0) = some (u, .success) ∧
    (u.reopen true).apply (.setAllocation 1638400 0) = some (v, .diskFull) ∧
    link (u.reopen true).device 3 = .last ∧ link v.device 3 = .free := by
  have hrun : ((emptyFile.apply (.setEndOfFile 1 0)).bind fun t =>
      (t.1.apply (.setAllocation 16384 0)).bind fun u =>
      ((u.1.reopen true).apply (.setAllocation 1638400 0)).map fun v =>
        (t.2, u.2, v.2, link (u.1.reopen true).device 3, link v.1.device 3)) =
      some (.success, .success, .diskFull, .last, .free) := by decide +kernel
  obtain ⟨⟨t, s₁⟩, ht, hrun⟩ := Option.bind_eq_some_iff.1 hrun
  obtain ⟨⟨u, s₂⟩, hu, hrun⟩ := Option.bind_eq_some_iff.1 hrun
  obtain ⟨⟨v, s₃⟩, hv, hrun⟩ := Option.map_eq_some_iff.1 hrun
  simp only [Prod.mk.injEq] at hrun
  obtain ⟨rfl, rfl, rfl, hbefore, hafter⟩ := hrun
  exact ⟨t, u, v, ht, hu, hv, hbefore, hafter⟩

end Roswell.Ports.FatAllocation
