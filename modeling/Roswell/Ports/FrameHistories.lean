import Roswell.Ports.FrameRaces
import Roswell.Ports.TitleVmLoops

/-!
# Histories of title memory and the contiguous allocator

The invariant `Shared.Ok` is that of `FrameOwners` together with exclusive
holdings: a page of a live allocation, of one being returned, or taken by the
title call in progress, is in use without an owner and has one holder.  Each
party keeps it, and so does every history that meets `Act.Clear`.
-/

namespace Roswell.Ports.FrameRaces

open Verified.Word Verified.Runs Verified.Holdings PageSupply PageTables TitleVm VmSteps Function
open FrameOwners
open Contig (Request Window Allocation takeContiguous returnPages claimShrink)

theorem ne_zero_of_marked {e : Nat} (h : flagOn e nxvPteFresh = true) : e ≠ 0 := by
  rintro rfl
  exact absurd h nofun

/-- The page of a cleared entry is one the call still returns. -/
theorem Pc.watched_of_cleared {pc : Pc} {i p : Nat} (h : pc.cleared = some (i, p)) :
    pc.watched = some p := by
  cases pc with
  | freeReturn k va pfn =>
    cases h
    rfl
  | _ => exact absurd h nofun

structure Shared.Ok (s : Shared) : Prop where
  owners : Owners s.mem s.pc.pinned s.pc.placed s.pc.cleared
  held : Held s.mem.supply.Pinned s.Holds
  pc : Pc.Ok s.mem s.pc

namespace Shared.Ok

/-! ## Steps of the title call -/

section

variable {s : Shared} {m : Machine} {pc : Pc}

/-- The call reaches a point without a page in hand. -/
theorem settle (h : s.Ok) (howners : Owners m none none none)
    (hkeep : ∀ k p, k ≠ .vm → s.Holds k p → m.supply.Pinned p) (hnext : Next m pc) :
    Shared.Ok { s with mem := m, pc := pc } := by
  have hother : ∀ k p, ({ s with mem := m, pc := pc } : Shared).Holds k p →
      k ≠ .vm ∧ s.Holds k p := by
    intro k p hk
    cases k with
    | live a | returning a => exact ⟨nofun, hk⟩
    | vm => exact absurd (hnext.pinned.symm.trans hk) nofun
  refine ⟨?_, h.held.shrink (fun k p hk => (hother k p hk).2) ?_, hnext.ok⟩
  · rw [hnext.pinned, hnext.placed, hnext.cleared]
    exact howners
  · intro k p hk
    obtain ⟨hvm, hold⟩ := hother k p hk
    exact hkeep k p hvm hold

/-- A step that only reads. -/
theorem stay (h : s.Ok) (howners : Owners s.mem none none none) (hnext : Next s.mem pc) :
    Shared.Ok { s with pc := pc } :=
  h.settle howners (fun _ _ _ hk => h.held.pinned hk) hnext

/-- The call goes on at one of two points. -/
theorem branch (h : s.Ok) (howners : Owners s.mem none none none) {c : Prop} [Decidable c]
    {pc' : Pc} (hpos : c → Next s.mem pc) (hneg : ¬c → Next s.mem pc') :
    Shared.Ok { s with pc := if c then pc else pc' } := by
  split
  · exact h.stay howners (hpos ‹_›)
  · exact h.stay howners (hneg ‹_›)

/-- A step that rewrites the low bits of an entry. -/
theorem rewrite (h : s.Ok) (howners : Owners s.mem none none none) {i e : Nat}
    (hi : TitlePage i) (hne : s.mem.pt i ≠ 0) (hfr : frame e = frame (s.mem.pt i))
    (hlt : e < 2 ^ 32) (hnext : e ≠ 0 → Next (s.mem.setEntry i e) pc) :
    Shared.Ok { s with mem := s.mem.setEntry i e, pc := pc } := by
  obtain ⟨hnew, he⟩ := howners.rewrite hi hne hfr hlt
  exact h.settle hnew (fun _ _ _ hk => h.held.pinned hk) (hnext he)

/-- A step that takes a page; `pc` is where the call goes with it. -/
theorem take (h : s.Ok) (howners : Owners s.mem none none none) {supply : Supply} {pfn : Nat}
    (htook : Took s.mem.supply supply pfn) (hpin : pc.pinned = some pfn)
    (hplaced : pc.placed = none) (hcleared : pc.cleared = none)
    (hok : Pc.Ok { s.mem with supply := supply } pc) :
    Shared.Ok { s with mem := { s.mem with supply := supply }, pc := pc } := by
  have hpos := howners.supply.free_pos htook.was_free
  have hle := howners.supply.free_le htook.was_free
  have hfresh : ¬s.mem.supply.Pinned pfn := by
    intro hp
    exact absurd (htook.was_free.symm.trans hp.not_free) nofun
  have hnew : supply.Pinned pfn := ⟨hpos, htook.highest.symm ▸ hle, htook.links_self⟩
  refine ⟨?_, ?_, hok⟩
  · rw [hpin, hplaced, hcleared]
    exact howners.take htook
  refine h.held.grant .vm (· = pfn) (fun _ hp => htook.run.pinned hp) ?_ ?_ ?_
  · rintro p rfl
    exact hfresh
  · rintro p rfl
    exact hnew
  · intro k p hk
    cases k with
    | live a => exact .inl hk
    | returning a => exact .inl hk
    | vm => exact .inr ⟨rfl, Option.some.inj (hk.symm.trans hpin)⟩

/-- A step that takes a page, or finds none and goes to `out`. -/
theorem takeOr (h : s.Ok) (howners : Owners s.mem none none none) {out : Pc} {into : Nat → Pc}
    (hout : Next s.mem out) {t : Shared}
    (ht : t = { s with
      mem := { s.mem with supply := s.mem.supply.nxkPageSupplyTakeAny.1 }
      pc :=
        if s.mem.supply.nxkPageSupplyTakeAny.2 = 0 then out
        else into s.mem.supply.nxkPageSupplyTakeAny.2 })
    (hpin : ∀ pfn, (into pfn).pinned = some pfn) (hplaced : ∀ pfn, (into pfn).placed = none)
    (hcleared : ∀ pfn, (into pfn).cleared = none)
    (hok : ∀ supply pfn, Pc.Ok { s.mem with supply := supply } (into pfn)) : t.Ok := by
  rw [ht]
  rcases howners.supply.takeAny_spec with ⟨-, hnone⟩ | ⟨htook, -⟩
  · rw [hnone]
    exact h.stay howners hout
  · rw [if_neg (howners.supply.free_pos htook.was_free)]
    exact h.take howners htook (hpin _) (hplaced _) (hcleared _) (hok _ _)

/-- A step that writes back an entry it has read with new protection bits. -/
theorem reprotect (h : s.Ok) (howners : Owners s.mem none none none) {j : Job} {va old : Nat}
    (hat : Job.At j va) (hold : s.mem.pt (pteIndex va) = old) (h0 : old ≠ 0)
    (hnext : frameBits old ||| j.bits ≠ 0 →
      Next (s.mem.setEntry (pteIndex va) (frameBits old ||| j.bits)) pc) :
    Shared.Ok { s with
      mem := s.mem.setEntry (pteIndex va) (frameBits old ||| j.bits), pc := pc } := by
  refine h.rewrite howners hat.title (hold ▸ h0) ?_ (reprotect_lt hat.bits.lt) hnext
  rw [hold]
  exact frame_reprotect (hold ▸ howners.entry_lt _ (.inl hat.title)) hat.bits.lt

/-- The page of the call stays in hand while an entry is written. -/
theorem hold (h : s.Ok) {pt : Nat → Nat} (hpin : pc.pinned = s.pc.pinned)
    (howners : Owners { s.mem with pt := pt } pc.pinned pc.placed pc.cleared)
    (hok : Pc.Ok { s.mem with pt := pt } pc) :
    Shared.Ok { s with mem := { s.mem with pt := pt }, pc := pc } := by
  refine ⟨howners, h.held.shrink ?_ ?_, hok⟩
  · intro k p hk
    cases k with
    | live a => exact hk
    | returning a => exact hk
    | vm => exact hpin.symm.trans hk
  · intro k p hk
    cases k with
    | live a => exact h.held.pinned (i := .live a) hk
    | returning a => exact h.held.pinned (i := .returning a) hk
    | vm => exact h.held.pinned (i := .vm) (hpin.symm.trans hk)

/-- The owner of the page in hand is recorded. -/
theorem own (h : s.Ok) {pfn i : Nat} (hpin : s.pc.pinned = some pfn)
    (howners : Owners s.mem (some pfn) (some i) none) (hi : TitleEntry i) (hne : s.mem.pt i ≠ 0)
    (hfr : frame (s.mem.pt i) = pfn)
    (hnext : ∀ supply, Next { s.mem with supply := supply } pc) :
    Shared.Ok { s with
      mem := { s.mem with supply := s.mem.supply.nxkPageSupplySetOwner pfn (ownerPteVa i) }
      pc := pc } := by
  have hpinned : s.mem.supply.Pinned pfn := h.held.pinned (i := .vm) hpin
  obtain ⟨heq, hnew⟩ := howners.own hi hpinned hne hfr
  rw [heq]
  refine h.settle hnew ?_ (hnext _)
  intro k p hvm hk
  have hp : p ≠ pfn := by
    rintro rfl
    exact hvm (h.held.apart hk hpin)
  have hold := h.held.pinned hk
  refine ⟨hold.1, hold.2.1, ?_⟩
  rw [Supply.setEntry_links, update_of_ne hp]
  exact hold.2.2

end

section

variable {m : Machine} {j : Job} {va pfn : Nat} {live returning : List Allocation}

/-- The page directory entry of a new table is written. -/
theorem tableWrite (h : Shared.Ok ⟨m, .tableWrite j va pfn, live, returning⟩) :
    (Shared.vm ⟨m, .tableWrite j va pfn, live, returning⟩).Ok := by
  obtain ⟨hat, h0⟩ := h.pc
  have howners : Owners m (some pfn) none none := h.owners
  have hpin : m.supply.Pinned pfn := h.held.pinned (i := .vm) rfl
  have hpfn : pfn < 2 ^ 20 := by
    have h1 := howners.supply.highest_lt
    have h2 := hpin.2.1
    omega
  generalize hpt : update (fun i => if i / 1024 = va >>> 22 then 0 else m.pt i) (pdeIndex va)
    (mkEntry pfn (nxvPteP ||| nxvPteRw)) = pt
  have hself : pt (pdeIndex va) = mkEntry pfn (nxvPteP ||| nxvPteRw) := by
    rw [← hpt, update_self]
  have hnew : Owners { m with pt := pt } (some pfn) (some (pdeIndex va)) none := by
    rw [hat.pde] at h0 hpt ⊢
    rw [hat.span] at hpt
    exact (howners.placeTable hat.title h0 hpfn hpt.symm).1
  have hok : Pc.Ok { m with pt := pt } (.tableOwner j va pfn) := by
    refine ⟨hat, ?_, ?_⟩
    · show present (pt (pdeIndex va)) = true
      rw [hself]
      exact present_table pfn
    · show frame (pt (pdeIndex va)) = pfn
      rw [hself]
      exact frame_mkEntry pfn (by decide)
  show Shared.Ok ⟨⟨_, m.supply⟩, .tableOwner j va pfn, live, returning⟩
  rw [hpt]
  exact h.hold rfl hnew hok

/-- The entry of a new page is written. -/
theorem pageWrite (h : Shared.Ok ⟨m, .pageWrite j va pfn, live, returning⟩) :
    (Shared.vm ⟨m, .pageWrite j va pfn, live, returning⟩).Ok := by
  obtain ⟨hat, hp, h0⟩ : Job.At j va ∧ present (m.pt (pdeIndex va)) = true ∧
    m.pt (pteIndex va) = 0 := h.pc
  have howners : Owners m (some pfn) none none := h.owners
  have hpin : m.supply.Pinned pfn := h.held.pinned (i := .vm) rfl
  have hpfn : pfn < 2 ^ 20 := by
    have h1 := howners.supply.highest_lt
    have h2 := hpin.2.1
    omega
  generalize he : mkEntry pfn (j.bits ||| nxvPteFresh) = e
  have hfr : frame e = pfn := by
    rw [← he]
    exact frame_mkEntry pfn hat.bits.marked_lt
  have hself : update m.pt (pteIndex va) e (pteIndex va) = e := update_self ..
  rw [hat.pde] at hp
  have hnew := howners.place hat.title h0 hp hpfn hat.bits.marked_lt
  have hok : Pc.Ok (m.setEntry (pteIndex va) e) (.pageOwner j va pfn) := by
    refine ⟨hat, ?_, ?_⟩
    · show update m.pt (pteIndex va) e (pteIndex va) ≠ 0
      rw [hself]
      exact ne_zero_of_frame (by rw [hfr]; exact hpin.1)
    · show frame (update m.pt (pteIndex va) e (pteIndex va)) = pfn
      rw [hself]
      exact hfr
  rw [he] at hnew
  show Shared.Ok ⟨m.setEntry (pteIndex va) _, .pageOwner j va pfn, live, returning⟩
  rw [he]
  exact h.hold rfl hnew hok

end

/-- A title call keeps the invariant at each of its steps. -/
theorem vm {s : Shared} (h : s.Ok) : s.vm.Ok := by
  obtain ⟨m, pc, live, returning⟩ := s
  cases pc with
  | idle => exact h
  | ensure j va =>
    have hat : Job.At j va := h.pc
    refine h.branch h.owners (fun hp => ⟨rfl, rfl, rfl, hat, hp⟩) fun hp => ⟨rfl, rfl, rfl, hat, ?_⟩
    by_contra h0
    exact hp (h.owners.directory _ hat.table.1 hat.table.2 h0)
  | tableTake j va =>
    obtain ⟨hat, h0⟩ := h.pc
    exact h.takeOr h.owners (undoAt_next hat.toOk hat.aligned hat.lt.le) rfl
      (fun _ => rfl) (fun _ => rfl) (fun _ => rfl) (fun _ _ => ⟨hat, h0⟩)
  | tableWrite j va pfn => exact h.tableWrite
  | tableOwner j va pfn =>
    obtain ⟨hat, hp, hfr⟩ : Job.At j va ∧ present (m.pt (pdeIndex va)) = true ∧
      frame (m.pt (pdeIndex va)) = pfn := h.pc
    refine h.own rfl h.owners (.inr hat.table) ?_ hfr ?_
    · intro h0
      rw [show m.pt (pdeIndex va) = 0 from h0] at hp
      exact absurd hp nofun
    · exact fun supply => ⟨rfl, rfl, rfl, hat, hp⟩
  | commitTest j va =>
    obtain ⟨hat, hp⟩ := h.pc
    exact h.branch h.owners (fun hne => ⟨rfl, rfl, rfl, hat, hne⟩)
      fun hne => ⟨rfl, rfl, rfl, hat, hp, not_not.1 hne⟩
  | commitRead j va | freshRead j va | hintRead j va =>
    obtain ⟨hat, hne⟩ := h.pc
    exact h.stay h.owners ⟨rfl, rfl, rfl, hat, hne, rfl⟩
  | commitWrite j va old =>
    obtain ⟨hat, h0, hold⟩ := h.pc
    obtain ⟨hd, hge⟩ := hat.step
    refine h.reprotect h.owners hat hold h0 ?_
    exact fun _ => commitAt_next hat.toOk hd hge
  | pageTake j va =>
    obtain ⟨hat, hp, h0⟩ : Job.At j va ∧ present (m.pt (pdeIndex va)) = true ∧
      m.pt (pteIndex va) = 0 := h.pc
    exact h.takeOr h.owners (undoAt_next hat.toOk hat.aligned hat.lt.le) rfl
      (fun _ => rfl) (fun _ => rfl) (fun _ => rfl) (fun _ _ => ⟨hat, hp, h0⟩)
  | pageWrite j va pfn => exact h.pageWrite
  | pageOwner j va pfn =>
    obtain ⟨hat, hne, hfr⟩ : Job.At j va ∧ m.pt (pteIndex va) ≠ 0 ∧
      frame (m.pt (pteIndex va)) = pfn := h.pc
    obtain ⟨hd, hge⟩ := hat.step
    refine h.own rfl h.owners (.inl hat.title) hne hfr ?_
    exact fun supply => commitAt_next hat.toOk hd hge
  | freshTest j va =>
    have hat : Job.At j va := h.pc
    obtain ⟨hd, hge⟩ := hat.step
    exact h.branch h.owners (fun hf => ⟨rfl, rfl, rfl, hat, ne_zero_of_marked hf⟩)
      fun _ => freshAt_next hat.toOk hd hge
  | freshWrite j va old =>
    obtain ⟨hat, h0, hold⟩ := h.pc
    obtain ⟨hd, hge⟩ := hat.step
    have hlt : old < 2 ^ 32 := hold ▸ h.owners.entry_lt _ (.inl hat.title)
    refine h.rewrite h.owners hat.title (hold ▸ h0) ?_ (Nat.and_lt_two_pow _ (by decide)) ?_
    · rw [show m.pt (pteIndex va) = old from hold]
      exact frame_and hlt rfl
    · exact fun _ => freshAt_next hat.toOk hd hge
  | undoTable j va =>
    have hat : Job.At j va := h.pc
    exact h.branch h.owners (fun _ => ⟨rfl, rfl, rfl, hat⟩)
      fun _ => undoAt_next hat.toOk hat.aligned hat.lt.le
  | undoTest j va =>
    have hat : Job.At j va := h.pc
    exact h.branch h.owners (fun hf => ⟨rfl, rfl, rfl, hat, ne_zero_of_marked hf⟩)
      fun _ => undoAt_next hat.toOk hat.aligned hat.lt.le
  | decommitTable j va =>
    have hat : Job.At j va := h.pc
    refine h.branch h.owners (fun _ => ⟨rfl, rfl, rfl, hat⟩) fun _ => ?_
    obtain ⟨p, rfl, hp⟩ := hat.page
    rw [skip_span (Nat.lt_trans hp.lt (by decide))]
    refine decommitAt_next hat.toOk (Nat.dvd_mul_left _ _) (Nat.le_trans hat.ge ?_)
    rw [show pageSize = 4096 from rfl]
    omega
  | decommitTest j va =>
    have hat : Job.At j va := h.pc
    obtain ⟨hd, hge⟩ := hat.step
    exact h.branch h.owners (fun hne => ⟨rfl, rfl, rfl, hat, hne⟩)
      fun _ => decommitAt_next hat.toOk hd hge
  | freeRead k va =>
    obtain ⟨hat, hne⟩ := h.pc
    exact h.stay h.owners ⟨rfl, rfl, rfl, hat, hne, rfl⟩
  | freeClear k va pfn =>
    obtain ⟨hat, hne, hfr⟩ : Job.At k.job va ∧ m.pt (pteIndex va) ≠ 0 ∧
      frame (m.pt (pteIndex va)) = pfn := h.pc
    have howners : Owners m none none none := h.owners
    obtain ⟨hnew, hown⟩ := howners.clear hat.title hne
    rw [hfr] at hnew hown
    refine h.hold rfl hnew ⟨hat, ?_, hown⟩
    exact update_self ..
  | freeReturn k va pfn =>
    obtain ⟨hat, h0, hown⟩ : Job.At k.job va ∧ m.pt (pteIndex va) = 0 ∧
      OwnedBy m.supply pfn (pteIndex va) := h.pc
    have howners : Owners m none none (some (pteIndex va, pfn)) := h.owners
    obtain ⟨hnew, hkeep⟩ := howners.release h0 hown
    refine h.settle hnew ?_ (resume_next hat)
    intro i p _ hi
    have hp := h.held.pinned hi
    refine hkeep p ?_ hp
    rintro rfl
    exact OwnedBy.not_pinned hown (.inl hat.title) hp
  | checkTable j va =>
    obtain ⟨hat, hc⟩ := h.pc
    exact h.branch h.owners (fun _ => ⟨rfl, rfl, rfl, hat, hc⟩) fun _ => ⟨rfl, rfl, rfl, trivial⟩
  | checkTest j va =>
    obtain ⟨hat, hc⟩ := h.pc
    obtain ⟨hd, hge⟩ := hat.step
    refine h.branch h.owners (fun hne => ?_) fun _ => ⟨rfl, rfl, rfl, trivial⟩
    refine checkAt_next hat.toOk hd hge ?_
    intro u hu hlt
    rw [hat.next] at hlt
    rcases hu.lt_or_eq hat hlt with hlt | rfl
    · exact hc u hu hlt
    · exact hne
  | oldRead j =>
    obtain ⟨hj, hc⟩ := h.pc
    exact h.stay h.owners (protectAt_next hj hj.start (Nat.le_refl _) hc)
  | protectRead j va =>
    obtain ⟨hat, hc⟩ := h.pc
    exact h.stay h.owners ⟨rfl, rfl, rfl, hat, hc, rfl⟩
  | protectWrite j va old =>
    obtain ⟨hat, hc, hold⟩ : Job.At j va ∧ Committed m j j.stop ∧ m.pt (pteIndex va) = old :=
      h.pc
    obtain ⟨hd, hge⟩ := hat.step
    refine h.reprotect h.owners hat hold (hold ▸ hc va hat hat.lt) ?_
    exact fun he => protectAt_next hat.toOk hd hge (hc.setEntry he)
  | hintTable j va =>
    have hat : Job.At j va := h.pc
    obtain ⟨hd, hge⟩ := hat.step
    exact h.branch h.owners (fun _ => ⟨rfl, rfl, rfl, hat⟩) fun _ => hintAt_next hat.toOk hd hge
  | hintTest j va =>
    have hat : Job.At j va := h.pc
    obtain ⟨hd, hge⟩ := hat.step
    exact h.branch h.owners (fun hne => ⟨rfl, rfl, rfl, hat, hne⟩)
      fun _ => hintAt_next hat.toOk hd hge
  | hintPresent j va =>
    obtain ⟨hat, hne⟩ := h.pc
    obtain ⟨hd, hge⟩ := hat.step
    exact h.branch h.owners (fun _ => ⟨rfl, rfl, rfl, hat, hne⟩)
      fun _ => hintAt_next hat.toOk hd hge
  | hintWrite j va old =>
    obtain ⟨hat, h0, hold⟩ := h.pc
    obtain ⟨hd, hge⟩ := hat.step
    refine h.reprotect h.owners hat hold h0 ?_
    exact fun _ => hintAt_next hat.toOk hd hge

/-! ## Steps of the other parties -/

section

variable {s : Shared}

theorem begin {call : VmCall} (h : s.Ok) (hidle : s.pc = .idle) (hjob : Job.Ok call.job) :
    Shared.Ok { s with pc := call.start } := by
  refine h.stay ?_ (start_next hjob)
  have howners := h.owners
  rw [hidle] at howners
  exact howners

/-- A relocating allocation keeps the invariant when it leaves the frame the
title call carries where it is. -/
theorem allocate {r : Request} (h : s.Ok) (hclear : Act.Clear s (.allocate r)) :
    (s.allocate r).Ok := by
  unfold Shared.allocate
  cases hw : r.window with
  | none => exact h
  | some w =>
    rcases hres : takeContiguous s.mem.supply w with ⟨supply, base, moves⟩
    obtain ⟨-, -, hkeep, hrun⟩ := Contig.takeContiguous_spec h.owners.supply hres
    simp only [hres]
    rcases Contig.takeContiguous_relocated h.owners.supply hres with
      ⟨rfl, rfl, rfl⟩ | ⟨b, hi, -, hwin, hhi, htake, hmoved, -⟩
    · exact h
    have hin : ∀ q, b ≤ q ∧ q < hi → w.lowPfn ≤ q ∧ q ≤ w.highPfn := by
      intro q hq
      obtain ⟨-, h2, h3, -⟩ := hwin
      omega
    have hstill : ∀ f, s.pc.watched = some f → ¬(b ≤ f ∧ f < hi) := fun f hf hq =>
      hclear w f hw hf (hin f hq)
    have hpinned : ∀ p, s.mem.supply.Pinned p → ¬(b ≤ p ∧ p < hi) := by
      intro p hp hq
      exact hp.not_takeable (htake p (inRun_iff.2 (by omega)))
    have hcleared : ∀ i p, s.pc.cleared = some (i, p) → ¬(b ≤ p ∧ p < hi) :=
      fun i p hc => hstill p (Pc.watched_of_cleared hc)
    obtain ⟨howners, hret⟩ := h.owners.relocate hmoved hwin.1
      (by have := hwin.2.2.2; omega) hcleared
    refine ⟨howners, ?_, ?_⟩
    · by_cases h0 : base = 0
      · simp only [if_pos h0]
        refine h.held.shrink (fun k p hk => ?_) (fun k p hk => hkeep p (h.held.pinned (i := k) ?_))
        · cases k <;> exact hk
        · cases k <;> exact hk
      simp only [if_neg h0]
      obtain ⟨hrun, -⟩ := hrun h0
      refine h.held.grant (.live ⟨base, w.runPages, w.numberOfBytes⟩)
        (fun p => inRun base w.runPages p = true) hrun.keep hrun.fresh hrun.run ?_
      intro k p hk
      cases k with
      | live a =>
        obtain ⟨ha, hp⟩ := hk
        rcases List.mem_cons.1 ha with rfl | ha
        · exact .inr ⟨rfl, inRun_iff.2 hp⟩
        · exact .inl ⟨ha, hp⟩
      | returning a => exact .inl hk
      | vm => exact .inl hk
    · refine h.pc.transfer hret.zero_iff hret.present_eq ?_ ?_ ?_
      · intro i hi' hf
        exact hret.still i hi' (hstill _ hf)
      · intro i hi' hf
        exact hret.still i hi' (hpinned _ (h.held.pinned (i := .vm) hf))
      intro i p hi' hc hown
      have hlinks := hmoved.frame p hown.inUse (hcleared i p hc)
      refine ⟨hown.pos, ?_, ?_, ?_⟩
      · rw [hmoved.highest]
        exact hown.le
      · rw [Supply.free, hlinks]
        exact hown.inUse
      · rw [hlinks]
        exact hown.owner

theorem free {a : Allocation} (h : s.Ok) : (s.free a).Ok := by
  unfold Shared.free
  split_ifs with ha
  · refine ⟨h.owners, h.held.transfer (.live a) (.returning a) ?_, h.pc⟩
    intro k p hk
    cases k with
    | live b =>
      obtain ⟨hb, hp⟩ := hk
      obtain ⟨hb, hne⟩ := List.mem_filter.1 hb
      refine .inl ⟨fun e => ?_, hb, hp⟩
      cases e
      exact of_decide_eq_true hne rfl
    | returning b =>
      obtain ⟨hb, hp⟩ := hk
      rcases List.mem_cons.1 hb with rfl | hb
      · exact .inr ⟨rfl, ha, hp⟩
      · exact .inl ⟨nofun, hb, hp⟩
    | vm => exact .inl ⟨nofun, hk⟩
  · exact h

/-- A change of the supply alone, under the call in progress. -/
theorem setSupply {supply : Supply} {returning : List Allocation} (h : s.Ok) (hinv : Inv supply)
    (hown : ∀ p i, TitleEntry i → (OwnedBy supply p i ↔ OwnedBy s.mem.supply p i))
    (hsub : ∀ a ∈ returning, a ∈ s.returning)
    (hkeep : ∀ k p, ({ s with returning := returning } : Shared).Holds k p → supply.Pinned p) :
    Shared.Ok { s with mem := { s.mem with supply := supply }, returning := returning } := by
  refine ⟨h.owners.setSupply hinv hown, h.held.shrink ?_ ?_, ?_⟩
  · intro k p hk
    cases k with
    | live a => exact hk
    | returning a => exact ⟨hsub a hk.1, hk.2⟩
    | vm => exact hk
  · intro k p hk
    refine hkeep k p ?_
    cases k <;> exact hk
  · exact h.pc.transfer (fun _ _ => Iff.rfl) (fun _ _ => rfl) (fun _ _ _ => rfl)
      (fun _ _ _ => rfl) (fun i p hi _ ho => (hown p i hi).2 ho)

theorem giveBack {a : Allocation} (h : s.Ok) : (s.giveBack a).Ok := by
  unfold Shared.giveBack
  split_ifs with ha
  · have hpin : ∀ q, inRun a.base a.pages q = true → s.mem.supply.Pinned q := fun q hq =>
      h.held.pinned (i := .returning a) ⟨ha, inRun_iff.1 hq⟩
    have hret : Returned s.mem.supply
        (returnPages s.mem.supply (a.base * pageSize) a.pages) a.base a.pages := by
      by_cases h0 : a.pages = 0
      · rw [h0]
        exact Returned.nil h.owners.supply a.base
      · have hlast := (hpin (a.base + a.pages - 1) (inRun_iff.2 (by omega))).2.1
        have hmax := h.owners.supply.highest_lt
        rw [Contig.returnPages_eq (by omega)]
        exact Contig.claimShrink_spec h.owners.supply a.base a.pages hpin
    refine h.setSupply hret.inv ?_ (fun b hb => (List.mem_filter.1 hb).1) ?_
    · intro p i hi
      by_cases hin : inRun a.base a.pages p = true
      · -- the pages returned were nobody's before and are free now
        refine iff_of_false (fun ho => ?_) (fun ho => OwnedBy.not_pinned ho hi (hpin p hin))
        have hf := ho.inUse
        rw [hret.free, hin] at hf
        contradiction
      · exact Returned.ownedBy_iff hret (by simpa using hin) (titleEntry_pos hi)
    · intro k p hk
      have hother : k ≠ .returning a ∧ s.Holds k p := by
        cases k with
        | live b | vm => exact ⟨nofun, hk⟩
        | returning b =>
          obtain ⟨hb, hp⟩ := hk
          obtain ⟨hb, hne⟩ := List.mem_filter.1 hb
          refine ⟨fun e => ?_, hb, hp⟩
          cases e
          exact of_decide_eq_true hne rfl
      refine hret.keep (h.held.pinned hother.2) ?_
      rw [← Bool.not_eq_true]
      intro hin
      exact hother.1 (h.held.apart hother.2 ⟨ha, inRun_iff.1 hin⟩)
  · exact h

/-- A page that another user of the supply writes has no owner in the range. -/
theorem foreign_unowned {op : Op} (h : s.Ok) (hf : Foreign s op) {p i : Nat} (hw : op.Writes p)
    (hi : TitleEntry i) : ¬OwnedBy s.mem.supply p i := by
  intro ho
  rcases h.owners.owner p i hi ho with ⟨hne, hfr⟩ | hc
  · exact hf.mapped i p hi hw hne hfr
  · exact hf.watched p hw (Pc.watched_of_cleared hc)

theorem foreign {op : Op} (h : s.Ok) (hf : Foreign s op) :
    Shared.Ok { s with mem.supply := op.apply s.mem.supply } := by
  have hinv : Inv (op.apply s.mem.supply) := h.owners.supply.step ⟨hf.admissible, rfl⟩
  refine h.setSupply hinv ?_ (fun _ ha => ha) ?_
  · intro p i hi
    by_cases hw : op.Writes p
    · refine iff_of_false ?_ (h.foreign_unowned hf hw hi)
      intro ho
      cases op with
      | giveBack page =>
        obtain rfl : page = p := hw
        have hadm := hf.admissible
        have hfree := ho.inUse
        rw [Op.apply, h.owners.supply.return_free (by have := hadm.1; omega) hadm.2.1 hadm.2.2,
          decide_eq_true rfl] at hfree
        contradiction
      | setOwner page pteVa =>
        obtain rfl : page = p := hw
        have hl := ho.owner
        rw [Op.apply, Supply.nxkPageSupplySetOwner] at hl
        split at hl
        · rw [Supply.setEntry_links, update_self] at hl
          split at hl
          · exact hf.owner page pteVa rfl (hl ▸ hi)
          · exact titleEntry_pos hi hl.symm
        · refine h.foreign_unowned hf rfl hi ?_
          rw [Op.apply, Supply.nxkPageSupplySetOwner, if_neg ‹_›] at ho
          exact ho
      | _ => exact hw
    · exact apply_ownedBy_iff h.owners.supply hf.admissible hf.noRelocation hw (titleEntry_pos hi)
  · intro k p hk
    exact h.owners.supply.apply_pinned hf.admissible (h.held.pinned hk)
      (fun hw => hf.held k p hw hk)

end

/-! ## Histories -/

theorem boot {s : Shared} (hs : Boot s) : s.Ok := by
  obtain ⟨m, pc, live, returning⟩ := s
  obtain ⟨hinv, hempty, hunowned, hidle, hlive, hret⟩ := hs
  subst hidle hlive hret
  refine ⟨⟨hinv, ?_, ?_, ?_, ?_, ?_⟩, ⟨?_, ?_⟩, trivial⟩
  · intro i hi
    rw [hempty i hi]
    decide
  · intro p hp _
    exact hempty p (.inl hp)
  · intro i h1 h2 hne
    exact absurd (hempty i (.inr ⟨h1, h2⟩)) hne
  · intro i hi hne
    exact absurd (hempty i hi) hne
  · intro p i hi ho
    exact absurd ho (hunowned p i hi)
  · intro k p hk
    cases k with
    | live a | returning a => exact absurd hk.1 List.not_mem_nil
    | vm => exact absurd hk nofun
  · intro k k' p hk _
    cases k with
    | live a | returning a => exact absurd hk.1 List.not_mem_nil
    | vm => exact absurd hk nofun

theorem step {s t : Shared} {a : Act} (h : s.Ok) (hst : Step (fun s a => a.Clear s) s a t) :
    t.Ok := by
  obtain ⟨hadm, hclear, rfl⟩ := hst
  cases a with
  | begin call => exact h.begin hadm.1 ⟨hadm.2, hclear.1, hclear.2⟩
  | vm => exact h.vm
  | allocate r => exact h.allocate hclear
  | free a => exact h.free
  | giveBack a => exact h.giveBack
  | foreign op => exact h.foreign hadm

theorem history {s : Shared} (h : History (fun s a => a.Clear s) s) : s.Ok := by
  refine Reachable.invariant ?_ ?_ h
  · exact fun s hs => boot hs
  · exact fun s a t hs hst => step hs hst

end Shared.Ok

/-- In every history whose title ranges lie in the title's part of the address
space, and whose allocations leave the frame the title call carries alone, no
page of a live contiguous allocation is free or the frame of an entry. -/
theorem live_frames_apart {s : Shared} (h : History (fun s a => a.Clear s) s) {a : Allocation}
    (ha : a ∈ s.live) {p : Nat} (hp : a.Has p) :
    s.mem.supply.free p = false ∧
      ∀ i, TitleEntry i → s.mem.pt i ≠ 0 → frame (s.mem.pt i) ≠ p := by
  have hok := Shared.Ok.history h
  have hheld : s.Holds (.live a) p := ⟨ha, hp⟩
  have hpin := hok.held.pinned hheld
  refine ⟨hpin.not_free, ?_⟩
  rintro i hi hne rfl
  rcases hok.owners.referenced i hi hne with hown | ⟨-, hvm⟩
  · exact OwnedBy.not_pinned hown hi hpin
  · exact absurd (hok.held.apart hheld (j := .vm) hvm) nofun

/-! ## A commit, and a decommit that races with an allocation -/

/-- Empty page tables over a supply, with nothing in progress. -/
def bare (supply : Supply) : Shared := ⟨⟨fun _ => 0, supply⟩, .idle, [], []⟩

variable {P : Shared → Act → Prop}

/-- Boot code returns a page. -/
theorem bare_giveBack {supply : Supply} {page : Nat}
    (h : History P (bare supply)) (hadm : (Op.giveBack page).Admissible supply)
    (hP : P (bare supply) (.foreign (.giveBack page))) :
    History P (bare (supply.nxkPageSupplyReturn page)) := by
  refine .next (.foreign (.giveBack page)) h ⟨⟨hadm, nofun, ?_, ?_, nofun, nofun⟩, hP, rfl⟩
  · intro k p _ hk
    cases k with
    | live a | returning a => exact absurd hk.1 List.not_mem_nil
    | vm => exact absurd hk nofun
  · exact fun i p _ _ hne => absurd rfl hne

/-- Three pages, returned at boot. -/
def threePages : Supply :=
  (((Supply.nxkPageSupplyInitialize 0x3FFF true).nxkPageSupplyReturn 0x3400).nxkPageSupplyReturn
    0x3401).nxkPageSupplyReturn 0x3402

theorem threePages_history
    (hP : ∀ s op, P s (.foreign op)) : History P (bare threePages) := by
  refine bare_giveBack (bare_giveBack (bare_giveBack (.start ?_) ?_ (hP _ _)) ?_ (hP _ _)) ?_
    (hP _ _)
  · refine ⟨Inv.boot (by decide) (by decide) true, fun _ _ => rfl, ?_, rfl, rfl, rfl⟩
    intro p i hi ho
    exact titleEntry_pos hi ho.owner.symm
  · exact ⟨by decide, by decide, by decide⟩
  · exact ⟨by decide, by decide, by decide⟩
  · exact ⟨by decide, by decide, by decide⟩

/-- The page at `0x10000`, readable and writable. -/
def firstPage : Job := ⟨0x10000, 0x11000, nxvPteP ||| nxvPteRw⟩

theorem firstPage_formed : Job.Formed firstPage :=
  ⟨by decide, by decide, by decide, by decide⟩

/-- A request for the page at frame `0x3401`. -/
def frame3401 : Request := ⟨0x1000, 0x3401000, 0x3401FFF, 0⟩

/-- The commit of one page, from its first step to its last; it takes a table at
frame `0x3402` and a page at `0x3401`. -/
def committed : Shared :=
  (List.replicate 11 Act.vm).foldl Act.apply
    (Act.apply (bare threePages) (.begin (.commit firstPage)))

theorem committed_history (hforeign : ∀ s op, P s (.foreign op))
    (hbegin : ∀ s, P s (.begin (.commit firstPage))) (hvm : ∀ s, P s .vm) :
    History P committed := by
  have hstart : Step P (bare threePages) (.begin (.commit firstPage))
      (Act.apply (bare threePages) (.begin (.commit firstPage))) :=
    ⟨⟨rfl, firstPage_formed⟩, hbegin _, rfl⟩
  refine Reachable.foldl (.next _ (threePages_history hforeign) hstart) _ ?_
  intro a ha u
  rw [List.eq_of_mem_replicate ha]
  exact ⟨trivial, hvm u, rfl⟩

theorem committed_idle : committed.pc = .idle := rfl

/-- With no title call in progress, the allocation of frame `0x3401` moves the
page of the title to frame `0x3400`. -/
theorem live_frames_apart_relocated :
    frame (committed.mem.pt 0x10) = 0x3401 ∧
      frame ((committed.allocate frame3401).mem.pt 0x10) = 0x3400 ∧
      (committed.allocate frame3401).mem.supply.free 0x3401 = false := by
  have hlive : ⟨0x3401, 1, 0x1000⟩ ∈ (committed.allocate frame3401).live := by decide +kernel
  have h : History (fun s a => a.Clear s) (committed.allocate frame3401) := by
    refine .next (.allocate frame3401) (committed_history ?_ ?_ ?_) ⟨trivial, ?_, rfl⟩
    · exact fun _ _ => trivial
    · exact fun _ => ⟨by decide, by decide⟩
    · exact fun _ => trivial
    · intro w f _ hf
      exact absurd hf nofun
  exact ⟨by decide +kernel, by decide +kernel,
    (live_frames_apart h hlive ⟨by decide, by decide⟩).1⟩

/-- A decommit of the page stops after it has read the entry, an allocation
moves the page away, and the decommit goes on with the frame it has read. -/
def raced : Shared :=
  ([Act.vm, .vm, .vm, .allocate frame3401, .vm, .vm]).foldl Act.apply
    (Act.apply committed (.begin (.decommit firstPage)))

/-- The frame of the live allocation is on a free list. -/
theorem stale_frame_freed :
    History (fun _ _ => True) raced ∧ ⟨0x3401, 1, 0x1000⟩ ∈ raced.live ∧
      raced.mem.supply.free 0x3401 = true := by
  refine ⟨?_, by decide +kernel, by decide +kernel⟩
  have hcommitted : History (fun _ _ => True) committed :=
    committed_history (fun _ _ => trivial) (fun _ => trivial) (fun _ => trivial)
  have hstart : Step (fun _ _ => True) committed (.begin (.decommit firstPage))
      (Act.apply committed (.begin (.decommit firstPage))) :=
    ⟨⟨committed_idle, firstPage_formed⟩, trivial, rfl⟩
  refine Reachable.foldl (.next _ hcommitted hstart) _ ?_
  intro a ha u
  simp only [List.mem_cons, List.not_mem_nil, or_false] at ha
  rcases ha with rfl | rfl | rfl | rfl | rfl | rfl <;> exact ⟨trivial, trivial, rfl⟩

end Roswell.Ports.FrameRaces
