import Mathlib.Data.List.Basic

/-!
# Scatter reads and gather writes (`xb/scattergather.c`)

`XbScatterGather` makes one ordinary request for each page of the segment array and
reports once. A request is known by what it reports: the bytes it moved, or the status
it failed with. The bytes are kept as pairs of a file position and a memory address.

Where a request starts is decided by `NtReadFile` and `NtWriteFile`
(`io/iomgr/iofunc.c`): two negative offsets are not positions but ask for the file
pointer and for the end of the file, and a handle that may only append writes at the end
whatever the offset. The loop adds to the offset whatever it is.

What a request reports is the file system's: `VfatRead` and `VfatWrite` refuse an unbuffered
request that is not at a sector, so on a FATX volume the second request of a call that began
at a marker fails. `xdvdfs` does not look at the alignment of a read.
-/

namespace Roswell.Ports.ScatterGather

def pageSize : Nat := 4096

/-- `FILE_USE_FILE_POINTER_POSITION`, as a 64-bit offset. -/
def useFilePointerPosition : Int := -2

/-- `FILE_WRITE_TO_END_OF_FILE`, as a 64-bit offset. -/
def writeToEndOfFile : Int := -1

def statusInvalidParameter : Nat := 0xC000000D

/-- The flags of the file object, whether the handle was granted `FILE_APPEND_DATA` without
`FILE_WRITE_DATA`, and the positions a request may start at. -/
structure File where
  noIntermediateBuffering : Bool
  synchronousIo : Bool
  appendOnly : Bool
  currentByteOffset : Nat
  fileSize : Nat

/-- `NtReadFile` and `NtWriteFile` fail on the offset alone. -/
def File.Rejects (f : File) (write : Bool) : Option Int → Prop
  | none => f.synchronousIo = false
  | some o => o < 0 ∧ o ≠ useFilePointerPosition ∧ ¬(write = true ∧ o = writeToEndOfFile)

/-- The handle lets the request only append. -/
def File.Appends (f : File) (write : Bool) : Prop := write = true ∧ f.appendOnly = true

instance (f : File) (write : Bool) : Decidable (f.Appends write) :=
  inferInstanceAs (Decidable (_ ∧ _))

/-- The offset stands for a position that the file object knows. -/
def File.Marked (f : File) (write : Bool) (offset : Option Int) : Prop :=
  ¬f.Appends write ∧ ((f.synchronousIo = true ∧ offset = some useFilePointerPosition) ∨
    (write = true ∧ offset = some writeToEndOfFile))

/-- Where a request starts in the file. -/
def File.start (f : File) (write : Bool) : Option Int → Int
  | none => f.currentByteOffset
  | some o =>
    if f.Appends write then f.fileSize
    else if f.synchronousIo = true ∧ o = useFilePointerPosition then f.currentByteOffset
    else if write = true ∧ o = writeToEndOfFile then f.fileSize
    else o

/-- The file object after a request that moved bytes up to `position`. -/
def File.movedTo (f : File) (write : Bool) (position : Int) : File :=
  { f with
    currentByteOffset := position.toNat
    fileSize := if write then max f.fileSize position.toNat else f.fileSize }

/-- `SEGMENT_PAGE`: the page an element points into. -/
def segmentPage (buffer : Nat) : Nat := buffer - buffer % pageSize

/-- `n` bytes from a file position and from a memory address on. -/
def span (start : Int) (address n : Nat) : List (Int × Nat) :=
  (List.range n).map fun k : Nat => (start + k, address + k)

/-- The reported status (`none` is `STATUS_SUCCESS`) and byte count, and the bytes moved. -/
structure Outcome where
  status : Option Nat
  information : Nat
  moves : List (Int × Nat)

/-- A call: whether it writes, its segments and length, and what the request for each
element will report. -/
structure Call where
  write : Bool
  segmentArray : Nat → Nat
  length : Nat
  results : Nat → Except Nat Nat

/-- The loop, from element `i` with `done` bytes moved. -/
def Call.transfer (c : Call) (f : File) (offset : Option Int) (i done : Nat)
    (moves : List (Int × Nat)) : Outcome :=
  if done < c.length then
    let chunk := min (c.length - done) pageSize
    if c.segmentArray i = 0 then ⟨none, done, moves⟩
    else
      match c.results i with
      | .error one => ⟨if done = 0 then some one else none, done, moves⟩
      | .ok n =>
        let start := f.start c.write offset
        let moves := moves ++ span start (segmentPage (c.segmentArray i)) n
        if n < chunk then ⟨none, done + n, moves⟩
        else
          c.transfer (f.movedTo c.write (start + n)) (offset.map (· + n)) (i + 1) (done + n)
            moves
  else ⟨none, done, moves⟩
termination_by c.length - done
decreasing_by
  have hpos : 0 < pageSize := by decide
  omega

/-- `XeNtReadFileScatter` and `XeNtWriteFileGather`, on the file that the handle refers
to. Completion events and APCs are left out. -/
def Call.xbScatterGather (c : Call) (file : Except Nat File) (byteOffset : Option Int) :
    Outcome :=
  match file with
  | .error status => ⟨some status, 0, []⟩
  | .ok f =>
    if f.noIntermediateBuffering then c.transfer f byteOffset 0 0 []
    else ⟨some statusInvalidParameter, 0, []⟩

/-! ## The flat transfer -/

/-- The first `count` bytes of one transfer between the file and the segments laid end
to end. -/
def flat (start : Int) (segmentArray : Nat → Nat) (count : Nat) : List (Int × Nat) :=
  (List.range count).map fun k : Nat =>
    (start + k, segmentPage (segmentArray (k / pageSize)) + k % pageSize)

namespace Call

/-- The bytes that element `i` is to take. -/
def chunkAt (c : Call) (i : Nat) : Nat := min (c.length - i * pageSize) pageSize

/-- The results can be reported on this file at this offset. -/
structure Possible (c : Call) (f : File) (byteOffset : Option Int) : Prop where
  fits : ∀ i n, i * pageSize < c.length → c.results i = .ok n → n ≤ c.chunkAt i
  rejected : f.noIntermediateBuffering = false ∨ f.Rejects c.write byteOffset →
    ∀ n, c.results 0 ≠ .ok n

/-- Element `i` exists and is moved whole. -/
def Whole (c : Call) (i : Nat) : Prop :=
  c.segmentArray i ≠ 0 ∧ c.results i = .ok (c.chunkAt i)

/-- The bytes that element `i` moves. -/
def moved (c : Call) (i : Nat) : Nat :=
  if c.segmentArray i = 0 then 0
  else match c.results i with
    | .error _ => 0
    | .ok n => n

/-- The elements up to the first short or failed one, if there is one, take `count`
bytes. -/
def Reaches (c : Call) (count : Nat) : Prop :=
  ∃ j, (∀ k < j, k * pageSize < c.length → c.Whole k) ∧
    ((c.length ≤ j * pageSize ∧ count = c.length) ∨
      (j * pageSize < c.length ∧ ¬c.Whole j ∧ count = j * pageSize + c.moved j))

/-- The call did what one flat transfer does up to the first short or failed element. -/
structure AsFlat (c : Call) (start : Int) (r : Outcome) : Prop where
  moves : r.moves = flat start c.segmentArray r.information
  count : c.Reaches r.information
  error : r.status ≠ none → r.information = 0

variable {c : Call} {f : File} {offset : Option Int} {start : Int} {i done : Nat}

theorem flat_add (start : Int) (segmentArray : Nat → Nat) (i : Nat) {n : Nat}
    (hn : n ≤ pageSize) :
    flat start segmentArray (i * pageSize + n) = flat start segmentArray (i * pageSize) ++
      span (start + (i * pageSize : Nat)) (segmentPage (segmentArray i)) n := by
  have hpos : 0 < pageSize := by decide
  simp only [flat, span, List.range_add, List.map_append, List.map_map]
  congr 1
  refine List.map_congr_left fun k hk => ?_
  have hk : k < pageSize := Nat.lt_of_lt_of_le (List.mem_range.1 hk) hn
  simp [Nat.mul_add_div hpos, Nat.mul_comm i, Nat.div_eq_of_lt hk, Nat.mod_eq_of_lt hk,
    Int.add_assoc]

/-- One turn of the loop, given what the next ones do after a whole element. -/
theorem transfer_step (hdone : done = min c.length (i * pageSize))
    (hfits : ∀ n, i * pageSize < c.length → c.results i = .ok n → n ≤ c.chunkAt i)
    (hwhole : ∀ k < i, k * pageSize < c.length → c.Whole k)
    (hstart : done < c.length → 0 < c.moved i → f.start c.write offset = start + done)
    (hrest : ∀ n, done < c.length → c.Whole i → done + n = min c.length ((i + 1) * pageSize) →
      (∀ k < i + 1, k * pageSize < c.length → c.Whole k) →
      c.AsFlat start (c.transfer (f.movedTo c.write (start + done + n))
        (offset.map (· + (n : Int))) (i + 1) (done + n)
        (flat start c.segmentArray (done + n)))) :
    c.AsFlat start (c.transfer f offset i done (flat start c.segmentArray done)) := by
  rw [transfer]
  by_cases hlt : done < c.length
  · obtain rfl : done = i * pageSize := by omega
    -- a transfer that stops at this element
    have hstop : ∀ count status, (c.segmentArray i ≠ 0 → c.results i ≠ .ok (c.chunkAt i)) →
        count = i * pageSize + c.moved i → (status ≠ none → count = 0) →
        c.AsFlat start ⟨status, count, flat start c.segmentArray count⟩ :=
      fun count status hnot hcount herror =>
        ⟨rfl, ⟨i, hwhole, .inr ⟨hlt, fun h => hnot h.1 h.2, hcount⟩⟩, herror⟩
    rw [if_pos hlt]
    by_cases hseg : c.segmentArray i = 0
    · rw [if_pos hseg]
      exact hstop _ none (absurd hseg) (by simp [moved, hseg]) (by simp)
    rw [if_neg hseg]
    cases hres : c.results i with
    | error one =>
      exact hstop _ _ (by simp [hres]) (by simp [moved, hseg, hres])
        fun hs => Decidable.byContradiction fun h0 => hs (if_neg h0)
    | ok n =>
      have hn := hfits n hlt hres
      have hmoved : c.moved i = n := by simp [moved, hseg, hres]
      have hplace : span (f.start c.write offset) (segmentPage (c.segmentArray i)) n =
          span (start + (i * pageSize : Nat)) (segmentPage (c.segmentArray i)) n := by
        rcases Nat.eq_zero_or_pos n with rfl | hpos
        · rfl
        · rw [hstart hlt (by omega)]
      dsimp only
      rw [hplace, ← flat_add start _ i (Nat.le_trans hn (Nat.min_le_right _ _))]
      change c.AsFlat _ (if n < c.chunkAt i then _ else _)
      split_ifs with hless
      · exact hstop _ none (by simp [hres, Nat.ne_of_lt hless]) (by simp [moved, hseg, hres])
          (by simp)
      · obtain rfl : n = c.chunkAt i := by omega
        rw [hstart hlt (by unfold chunkAt pageSize at *; omega)]
        refine hrest _ hlt ⟨hseg, hres⟩ ?_ fun k hk hin => ?_
        · rw [Nat.add_mul, chunkAt]
          omega
        · rcases Nat.lt_succ_iff_lt_or_eq.1 hk with hk | rfl
          · exact hwhole k hk hin
          · exact ⟨hseg, hres⟩
  · rw [if_neg hlt]
    obtain rfl : done = c.length := by omega
    exact ⟨rfl, ⟨i, hwhole, .inl ⟨by omega, rfl⟩⟩, by simp⟩

/-- A nonnegative offset is a position, unless the handle can only append. -/
theorem start_nonneg {write : Bool} {o : Int} (ho : 0 ≤ o) :
    (¬f.Appends write → f.start write (some o) = o) ∧ ¬f.Rejects write (some o) ∧
      ¬f.Marked write (some o) := by
  have hpointer : o ≠ useFilePointerPosition := by
    unfold useFilePointerPosition
    omega
  have hend : o ≠ writeToEndOfFile := by
    unfold writeToEndOfFile
    omega
  simp +contextual [File.start, File.Rejects, File.Marked, hpointer, hend, ho]

theorem start_movedTo {write : Bool} {o : Int} (ho : 0 ≤ o) (happ : ¬f.Appends write)
    (position : Int) : (f.movedTo write position).start write (some o) = o :=
  (start_nonneg (f := f.movedTo write position) ho).1 happ

/-- The loop, where no offset is a marker. -/
theorem transfer_asFlat
    (hfits : ∀ i n, i * pageSize < c.length → c.results i = .ok n → n ≤ c.chunkAt i)
    (hdone : done = min c.length (i * pageSize))
    (hwhole : ∀ k < i, k * pageSize < c.length → c.Whole k)
    (hready : done < c.length → f.start c.write offset = start + done ∧
      ¬f.Rejects c.write offset ∧ ¬f.Marked c.write offset) :
    c.AsFlat start (c.transfer f offset i done (flat start c.segmentArray done)) := by
  induction h : c.length - done using Nat.strongRecOn generalizing f offset i done with
  | ind m ih =>
    refine transfer_step hdone (hfits i) hwhole (fun hlt _ => (hready hlt).1) ?_
    intro n hlt hi hdone' hwhole'
    obtain ⟨hstart, hok, hmark⟩ := hready hlt
    have hn : 0 < n ∧ (done + n < c.length → n = pageSize) := by
      unfold pageSize at *
      omega
    refine ih (c.length - (done + n)) (by omega) hdone' hwhole' (fun hlt' => ?_) rfl
    obtain rfl := hn.2 hlt'
    rw [Int.natCast_add, ← Int.add_assoc, ← hstart]
    cases offset with
    | none =>
      have hnonneg : 0 ≤ (f.currentByteOffset : Int) + pageSize := by omega
      exact ⟨Int.toNat_of_nonneg hnonneg, hok, by simp [File.Marked]⟩
    | some o =>
      have ho : 0 ≤ o + (pageSize : Int) := by
        by_contra hneg
        unfold pageSize at hneg
        exact hok ⟨by omega, by unfold useFilePointerPosition; omega,
          fun h => by unfold writeToEndOfFile at h; omega⟩
      refine ⟨?_, (start_nonneg ho).2⟩
      by_cases happ : f.Appends c.write
      · -- the file has grown by what was written
        have hend : f.start c.write (some o) = f.fileSize := if_pos happ
        rw [hend]
        refine (if_pos happ).trans ?_
        simp only [File.movedTo, happ.1, if_true]
        omega
      · simp only [File.Marked, happ, not_false_eq_true, true_and, Option.some.injEq,
          not_or] at hmark
        refine (start_movedTo ho happ _).trans ?_
        rw [File.start, if_neg happ, if_neg hmark.1, if_neg hmark.2]

/-- The loop only adds to the bytes moved. -/
theorem prefix_transfer (moves : List (Int × Nat)) :
    moves <+: (c.transfer f offset i done moves).moves := by
  induction h : c.length - done using Nat.strongRecOn generalizing f offset i done moves with
  | ind m ih =>
    rw [transfer]
    by_cases hlt : done < c.length
    · rw [if_pos hlt]
      by_cases hseg : c.segmentArray i = 0
      · simp [hseg]
      rw [if_neg hseg]
      cases c.results i with
      | error one => exact List.prefix_rfl
      | ok n =>
        dsimp only
        split_ifs with hless
        · exact List.prefix_append ..
        · have hpos : 0 < n := by
            unfold pageSize at hless
            omega
          exact (List.prefix_append ..).trans (ih (c.length - (done + n)) (by omega) _ rfl)
    · simp [hlt]

/-- Where the first byte of the second element goes. -/
theorem second_element (offset : Option Int) (hlen : pageSize < c.length) (h0 : c.Whole 0)
    (h1 : 0 < c.moved 1) :
    (c.transfer f offset 0 0 []).moves[pageSize]? =
      some ((f.movedTo c.write (f.start c.write offset + pageSize)).start c.write
        (offset.map (· + (pageSize : Int))), segmentPage (c.segmentArray 1)) := by
  have hchunk : c.chunkAt 0 = pageSize := by
    unfold chunkAt
    omega
  obtain ⟨hseg, hres⟩ := h0
  rw [hchunk] at hres
  have hseg1 : c.segmentArray 1 ≠ 0 := fun h => by simp [moved, h] at h1
  rw [moved, if_neg hseg1] at h1
  rw [transfer, if_pos (by omega), if_neg hseg, hres]
  dsimp only
  rw [if_neg (by omega), transfer, if_pos (by omega), if_neg hseg1]
  cases hres1 : c.results 1 with
  | error one => simp [hres1] at h1
  | ok n =>
    have hn : 0 < n := by simpa [hres1] using h1
    have hfirst : ∀ rest : List (Int × Nat), ∀ start address,
        ([] ++ span (f.start c.write offset) (segmentPage (c.segmentArray 0)) pageSize ++
          span start address n ++ rest)[pageSize]? = some (start, address) := by
      intro rest start address
      simp [span, List.getElem?_append, hn]
    dsimp only
    split_ifs with hless
    · simpa using hfirst [] _ _
    · obtain ⟨rest, hrest⟩ := prefix_transfer (c := c) _
      rw [← hrest]
      exact hfirst rest _ _

/-- After a marker, the second element is moved from the wrong place. -/
theorem moves_ne_flat (hlen : pageSize < c.length) (h0 : c.Whole 0) (h1 : 0 < c.moved 1)
    (happ : ¬f.Appends c.write) {o : Int} (hlow : -2 ≤ o) (hneg : o < start) (count : Nat) :
    (c.transfer f (some o) 0 0 []).moves ≠ flat start c.segmentArray count := by
  intro hflat
  have hplace := second_element (f := f) (some o) hlen h0 h1
  simp only [hflat, flat, List.getElem?_map, Option.map_eq_some_iff, Prod.mk.injEq] at hplace
  obtain ⟨k, hk, heq, -⟩ := hplace
  obtain ⟨_, rfl⟩ := List.getElem?_eq_some_iff.1 hk
  have hpos : 0 ≤ o + (pageSize : Int) := by
    unfold pageSize
    omega
  rw [List.getElem_range, Option.map_some, start_movedTo hpos happ] at heq
  omega

/-- A first element moved whole from a marker, and bytes moved after it. -/
def Strays (c : Call) (f : File) (offset : Option Int) : Prop :=
  f.noIntermediateBuffering = true ∧ f.Marked c.write offset ∧ pageSize < c.length ∧
    c.Whole 0 ∧ 0 < c.moved 1

theorem Possible.asFlat (hpos : c.Possible f offset) (h : ¬c.Strays f offset) :
    c.AsFlat (f.start c.write offset) (c.xbScatterGather (.ok f) offset) := by
  unfold xbScatterGather
  dsimp only
  split_ifs with hnib
  · by_cases hrej : f.Rejects c.write offset
    · exact transfer_step (i := 0) (by simp) (hpos.fits 0) (by simp) (by simp)
        fun n hlt hwhole => absurd hwhole.2 (hpos.rejected (.inr hrej) _)
    by_cases hmark : f.Marked c.write offset
    · refine transfer_step (i := 0) (by simp) (hpos.fits 0) (by simp) (by simp) ?_
      intro n hlt hwhole hdone hbehind
      -- the second element is short, and moves nothing
      have hnone : 0 + n < c.length → c.moved 1 = 0 := fun hlt' =>
        Nat.eq_zero_of_not_pos fun hmoved => h ⟨hnib, hmark, by omega, hwhole, hmoved⟩
      refine transfer_step hdone (hpos.fits 1) hbehind (fun hlt' hmoved => ?_) ?_
      · exact absurd (hnone hlt') (Nat.ne_of_gt hmoved)
      · intro _ hlt' hnext
        have hmoved : c.moved 1 = c.chunkAt 1 := by simp [moved, hnext.1, hnext.2]
        unfold chunkAt pageSize at *
        omega
    · exact transfer_asFlat (i := 0) hpos.fits (by simp) (by simp) (by simp [hrej, hmark])
  · have hnot := hpos.rejected (.inl (by simpa using hnib))
    have hshort : c.moved 0 = 0 := by
      unfold moved
      split_ifs
      · rfl
      cases hres : c.results 0 with
      | error one => rfl
      | ok n => exact absurd hres (hnot n)
    refine ⟨rfl, ⟨0, by simp, ?_⟩, fun _ => rfl⟩
    rw [Nat.zero_mul, hshort]
    rcases Nat.eq_zero_or_pos c.length with h0 | h0
    · exact .inl ⟨by omega, h0.symm⟩
    · exact .inr ⟨h0, fun hwhole => hnot _ hwhole.2, rfl⟩

end Call

/-- Whatever its requests report, a scatter or gather call does what one flat transfer does
exactly when it does not move a first element whole from a marker and then more bytes. -/
theorem asFlat_iff (c : Call) (f : File) (byteOffset : Option Int)
    (hpos : c.Possible f byteOffset) :
    c.AsFlat (f.start c.write byteOffset) (c.xbScatterGather (.ok f) byteOffset) ↔
      ¬c.Strays f byteOffset := by
  refine ⟨?_, hpos.asFlat⟩
  rintro hflat ⟨hnib, ⟨happ, hmark⟩, hlen, h0, h1⟩
  obtain ⟨o, rfl, hlow, hneg⟩ : ∃ o, byteOffset = some o ∧ -2 ≤ o ∧
      o < f.start c.write byteOffset := by
    rcases hmark with ⟨hsync, rfl⟩ | ⟨hwrite, rfl⟩
    · refine ⟨_, rfl, by decide, ?_⟩
      simp [File.start, happ, hsync, useFilePointerPosition]
      omega
    · refine ⟨_, rfl, by decide, ?_⟩
      simp [File.start, hwrite, writeToEndOfFile, useFilePointerPosition]
      omega
  have hmoves := hflat.moves
  simp only [Call.xbScatterGather, hnib, if_true] at hmoves
  exact Call.moves_ne_flat hlen h0 h1 happ hlow hneg _ hmoves

/-- A read of three pages, on a handle at 512 of a file that ends in the first one. -/
def shortRead : Call := ⟨false, fun i => 0x10000 + i * 0x1000, 12288, fun _ => .ok 100⟩

def pointed : File := ⟨true, true, false, 512, 612⟩

theorem asFlat_iff_short :
    pointed.start false (some useFilePointerPosition) = 512 ∧
      shortRead.AsFlat (pointed.start false (some useFilePointerPosition))
        (shortRead.xbScatterGather (.ok pointed) (some useFilePointerPosition)) := by
  refine ⟨by decide, (asFlat_iff shortRead pointed _ ⟨?_, ?_⟩).2 ?_⟩
  · intro i n hi hn
    cases hn
    unfold Call.chunkAt shortRead pageSize at *
    dsimp only at *
    omega
  · rintro (h | h)
    · cases h
    · exact absurd rfl h.2.1
  · rintro ⟨-, -, -, h0, -⟩
    cases h0.2

/-- A page and one byte, read at the file pointer of a synchronous handle, which is at 0:
the last byte is that at 4094. -/
theorem second_page_strays :
    ((Call.mk false (fun i => 0x10000 + i * 0x1000) 4097
        (fun i => .ok (if i = 0 then 4096 else 1))).xbScatterGather
      (.ok ⟨true, true, false, 0, 8192⟩) (some useFilePointerPosition)).moves[4096]? =
        some (4094, 0x11000) ∧
    (flat 0 (fun i => 0x10000 + i * 0x1000) 4097)[4096]? = some (4096, 0x11000) := by
  constructor
  · exact Call.second_element _ (by decide) ⟨by decide, rfl⟩ (by decide)
  · simp [flat]
    decide

end Roswell.Ports.ScatterGather
