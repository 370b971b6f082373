import Mathlib
import Roswell.Verified.Word
import Roswell.Ports.FatxDir

/-!
# Enumerating a FATX directory

Model of `FATXGetNextDirEntry` and of the loop its callers run: one call after
another, with the mapped page kept between them.  A call maps the page of its
index only if none is mapped or the index starts a page; otherwise it goes on in
the page it finds mapped.  The file offset of that page is a local variable
which is assigned only where a page is mapped, so a call that goes on in a kept
page and then has to leave it adds the page size to an uninitialised variable.
That value is the argument `junk` of a call.

A page mapped at a wrong offset need not start at an entry; `shifted` gives the
64 bytes found at such an offset.
-/

namespace Roswell.Ports.FatxEnum

open Verified.Word FatxDir Directory

/-- `*pContext`, as the file offset of the mapped page, and `DirIndex`.  On FATX
`StartIndex` is always the same. -/
structure Cursor where
  page : Option Nat
  dirIndex : Nat
  deriving DecidableEq, Repr

/-- What a call returns; `none` is `STATUS_NO_MORE_ENTRIES`. -/
abbrev Answer : Type := Option (Nat × DirEntry)

/-- The entry at an offset of the directory file. -/
def entryAt (d : Directory) (shifted : Nat → DirEntry) (offset : Nat) : DirEntry :=
  if offset % 64 = 0 then d.slot (offset / 64) else shifted offset

/-- `CcMapData` raises when the page would span two cache blocks. -/
def mappable (fileOffset : Nat) : Bool := fileOffset % 16384 + 4096 ≤ 16384

/-- The loop of `FATXGetNextDirEntry`. -/
def scan (d : Directory) (shifted : Nat → DirEntry) :
    Nat → Nat → Nat → Nat → Option (Cursor × Answer)
  | 0, _, _, _ => none
  | fuel + 1, fileOffset, page, dirIndex =>
    let e := entryAt d shifted (page + dirIndex % 64 * 64)
    if e.isEnd then some (⟨none, dirIndex⟩, none)
    else if !e.isDeleted then some (⟨some page, dirIndex⟩, some (dirIndex, e))
    else
      let dirIndex := dirIndex + 1
      if dirIndex % 64 = 0 then
        let fileOffset := wadd fileOffset 4096
        if d.fileSize ≤ fileOffset then some (⟨none, dirIndex⟩, none)
        else if !mappable fileOffset then some (⟨none, dirIndex⟩, none)
        else scan d shifted fuel fileOffset fileOffset dirIndex
      else scan d shifted fuel fileOffset page dirIndex

/-- More entries than a call can look at: the rest of a page, and the whole file
from a wrong offset on. -/
def enough (d : Directory) : Nat := d.count + 192

def fatxGetNextDirEntry (d : Directory) (shifted : Nat → DirEntry) (junk : Nat) (c : Cursor) :
    Option (Cursor × Answer) :=
  if c.page = none ∨ c.dirIndex % 64 = 0 then
    let fileOffset := alignDown (wmul c.dirIndex 64) 4096
    if d.fileSize ≤ fileOffset then some (⟨none, c.dirIndex⟩, none)
    else if !mappable fileOffset then some (⟨none, c.dirIndex⟩, none)
    else scan d shifted (enough d) fileOffset fileOffset c.dirIndex
  else scan d shifted (enough d) junk (c.page.getD 0) c.dirIndex

/-- The cursor before the `n`-th call of `FindFile` or `vfatDirFindFile`, which
go on at the next index after each entry. -/
def cursor (d : Directory) (shifted : Nat → DirEntry) (junk : Nat → Nat) : Nat → Cursor
  | 0 => ⟨none, 0⟩
  | n + 1 =>
    match fatxGetNextDirEntry d shifted (junk n) (cursor d shifted junk n) with
    | some (c, _) => { c with dirIndex := c.dirIndex + 1 }
    | none => cursor d shifted junk n

/-- What the `n`-th call returns. -/
def answer (d : Directory) (shifted : Nat → DirEntry) (junk : Nat → Nat) (n : Nat) :
    Option Answer :=
  (fatxGetNextDirEntry d shifted (junk n) (cursor d shifted junk n)).map Prod.snd

/-- The entry is followed by deleted entries only, up to the end of its page. -/
def DeletedTail (d : Directory) (i : Nat) : Prop :=
  i % 64 ≠ 63 ∧ ∀ k, i < k → k / 64 = i / 64 → (d.slot k).isDeleted = true

/-- The entries up to the end of the last page. -/
def pageEnd (d : Directory) : Nat := (d.count + 63) / 64 * 64

/-- What whole pages show: the live entries, and those behind the end of the directory in
its last page that look so. -/
def shown (d : Directory) : List Nat := d.liveFrom (pageEnd d) 0

theorem shown_eq (d : Directory) : ∃ more, shown d = d.live ++ more ∧ ∀ j ∈ more, d.count ≤ j := by
  have hend : pageEnd d = d.count + (pageEnd d - d.count) := by
    unfold pageEnd
    omega
  obtain ⟨more, hmore, hge⟩ :=
    liveFrom_add (d := d) (n := d.count) (i := 0) (pageEnd d - d.count)
  rw [← hend] at hmore
  exact ⟨more, hmore, fun j hj => (Nat.le_add_left ..).trans (hge j hj)⟩

/-! ## One call -/

section Scan

variable {d : Directory} {shifted : Nat → DirEntry} {fuel o i : Nat}

/-- The entry a page mapped at its own place shows. -/
theorem entryAt_own (d : Directory) (shifted : Nat → DirEntry) (i : Nat) :
    entryAt d shifted (i / 64 * 4096 + i % 64 * 64) = d.slot i := by
  unfold entryAt
  rw [if_pos (by omega), show (i / 64 * 4096 + i % 64 * 64) / 64 = i by omega]

theorem mappable_page (k : Nat) : mappable (k * 4096) = true := by
  unfold mappable
  exact decide_eq_true (by omega)

/-- The offset at which a call maps the page of an index. -/
theorem fileOffset_own {i : Nat} (h : i * 64 < 2 ^ 32) :
    alignDown (wmul i 64) 4096 = i / 64 * 4096 := by
  have hdown : alignDown (wmul i 64) 4096 = roundDown (wmul i 64) 4096 :=
    alignDown_two_pow (k := 12) (Nat.mod_lt _ (by decide)) (by decide)
  rw [hdown, roundDown, wmul, Nat.mod_eq_of_lt h]
  omega

theorem wadd_page {k : Nat} (h : k * 4096 + 4096 < 2 ^ 32) :
    wadd (k * 4096) 4096 = (k + 1) * 4096 := by
  rw [wadd_of_lt h]
  omega

/-- A scan in a page at its own place, with its offset known. -/
theorem scan_own (hsize : pageEnd d * 64 < 2 ^ 32) (hi : i < pageEnd d)
    (hfuel : pageEnd d - i < fuel) :
    (d.liveFrom (pageEnd d - i) i = [] →
      ∃ c, scan d shifted fuel (i / 64 * 4096) (i / 64 * 4096) i = some (c, none)) ∧
    ∀ j rest, d.liveFrom (pageEnd d - i) i = j :: rest →
      scan d shifted fuel (i / 64 * 4096) (i / 64 * 4096) i =
        some (⟨some (j / 64 * 4096), j⟩, some (j, d.slot j)) := by
  obtain ⟨n, hn⟩ : ∃ n, pageEnd d - i = n := ⟨_, rfl⟩
  rw [hn] at hfuel ⊢
  unfold pageEnd at hsize hi hn
  induction n generalizing i fuel with
  | zero => omega
  | succ n ih =>
    cases fuel with
    | zero => omega
    | succ fuel =>
      rw [liveFrom, scan]
      simp only [entryAt_own]
      by_cases he : (d.slot i).isEnd = true
      · rw [if_pos he, if_pos he]
        exact ⟨fun _ => ⟨_, rfl⟩, fun j rest h => by cases h⟩
      rw [if_neg he, if_neg he]
      by_cases hd : (d.slot i).isDeleted = true
      · rw [if_pos hd, hd]
        simp only [Bool.not_true, Bool.false_eq_true, if_false]
        by_cases hnext : (i + 1) % 64 = 0
        · -- the next page, if the directory has one
          rw [if_pos hnext, wadd_page (by omega),
            show i / 64 + 1 = (i + 1) / 64 by omega, mappable_page]
          by_cases hend : d.fileSize ≤ (i + 1) / 64 * 4096
          · rw [if_pos hend]
            have hlast : n = 0 := by
              unfold fileSize at hend
              omega
            subst hlast
            exact ⟨fun _ => ⟨_, rfl⟩, fun j rest h => by cases h⟩
          · rw [if_neg hend]
            unfold fileSize at hend
            simp only [Bool.not_true, Bool.false_eq_true, if_false]
            exact ih (by omega) (by omega) (by omega)
        · rw [if_neg hnext, show i / 64 = (i + 1) / 64 by omega]
          exact ih (by omega) (by omega) (by omega)
      · rw [if_neg hd]
        refine ⟨fun h => (by cases h), ?_⟩
        intro j rest h
        obtain ⟨rfl, -⟩ := List.cons.inj h
        simp only [Bool.not_eq_true] at hd
        rw [hd]
        rfl

/-- As long as the page has an entry that is not deleted, the offset is not
used. -/
theorem scan_kept {k page : Nat} (hik : i ≤ k) (hpage : k / 64 = i / 64)
    (hown : page = i / 64 * 4096) (hk : (d.slot k).isDeleted = false) (o' : Nat) :
    scan d shifted fuel o page i = scan d shifted fuel o' page i := by
  induction fuel generalizing i with
  | zero => rfl
  | succ fuel ih =>
    rw [scan, scan]
    simp only [hown, entryAt_own]
    by_cases he : (d.slot i).isEnd = true
    · rw [if_pos he, if_pos he]
    rw [if_neg he, if_neg he]
    by_cases hd : (d.slot i).isDeleted = true
    · have hne : i ≠ k := by
        rintro rfl
        rw [hd] at hk
        exact absurd hk nofun
      rw [hd]
      simp only [Bool.not_true, Bool.false_eq_true, if_false]
      rw [if_neg (by omega), if_neg (by omega), ← hown]
      exact ih (by omega) (by omega) (by rw [hown]; omega)
    · rw [Bool.not_eq_true] at hd
      rw [hd]
      rfl

/-- With deleted entries up to the end of the page, the scan leaves it and adds
to its offset whatever that is. -/
theorem scan_leaves {page n : Nat} (hown : page = i / 64 * 4096) (hn : i % 64 + n = 64)
    (hn0 : n ≠ 0) (hdel : ∀ k, i ≤ k → k / 64 = i / 64 → (d.slot k).isDeleted = true) :
    scan d shifted (fuel + n) o page i =
      if d.fileSize ≤ wadd o 4096 ∨ mappable (wadd o 4096) = false then
        some (⟨none, i + n⟩, none)
      else scan d shifted fuel (wadd o 4096) (wadd o 4096) (i + n) := by
  induction n generalizing i with
  | zero => exact absurd rfl hn0
  | succ n ih =>
    have hd := hdel i (Nat.le_refl _) rfl
    have he : (d.slot i).isEnd ≠ true := by
      intro he
      rw [DirEntry.isEnd_not_deleted he] at hd
      exact absurd hd nofun
    rw [← Nat.add_assoc, scan]
    simp only [hown, entryAt_own]
    rw [if_neg he, hd]
    simp only [Bool.not_true, Bool.false_eq_true, if_false]
    by_cases hlast : (i + 1) % 64 = 0
    · have : n = 0 := by omega
      subst this
      rw [if_pos hlast]
      by_cases hsize : d.fileSize ≤ wadd o 4096
      · rw [if_pos hsize, if_pos (.inl hsize)]
      · rw [if_neg hsize]
        cases hmap : mappable (wadd o 4096) with
        | true => simp [hsize]
        | false => simp
    · rw [if_neg hlast, ← hown, ih (by rw [hown]; omega) (by omega) (by omega)
        (fun k h1 h2 => hdel k (by omega) (by omega)),
        show i + 1 + n = i + (n + 1) by omega]

/-- A page that has a live entry and no end marker before it shows one, wherever
it is mapped. -/
theorem scan_shows {b k n : Nat} (hk : k % 64 = i % 64 + n) (hb : k / 64 = b)
    (hend : ∀ l, l / 64 = b → l ≤ k → (d.slot l).isEnd = false)
    (hlive : (d.slot k).isDeleted = false) (hfuel : n < fuel) :
    ∃ c j e, scan d shifted fuel o (b * 4096) i = some (c, some (j, e)) := by
  induction n generalizing i fuel with
  | zero =>
    cases fuel with
    | zero => omega
    | succ fuel =>
      have hat : entryAt d shifted (b * 4096 + i % 64 * 64) = d.slot k := by
        rw [show b * 4096 + i % 64 * 64 = k / 64 * 4096 + k % 64 * 64 by omega, entryAt_own]
      rw [scan]
      simp only [hat, hend k hb (Nat.le_refl _), hlive]
      exact ⟨_, _, _, rfl⟩
  | succ n ih =>
    cases fuel with
    | zero => omega
    | succ fuel =>
      have hat : entryAt d shifted (b * 4096 + i % 64 * 64) = d.slot (k - (n + 1)) := by
        rw [show b * 4096 + i % 64 * 64 =
          (k - (n + 1)) / 64 * 4096 + (k - (n + 1)) % 64 * 64 by omega, entryAt_own]
      rw [scan]
      simp only [hat, hend (k - (n + 1)) (by omega) (by omega), Bool.false_eq_true, if_false]
      by_cases hd : (d.slot (k - (n + 1))).isDeleted = true
      · rw [hd]
        simp only [Bool.not_true, Bool.false_eq_true, if_false]
        rw [if_neg (by omega)]
        exact ih (by omega) (by omega)
      · rw [Bool.not_eq_true] at hd
        rw [hd]
        exact ⟨_, _, _, rfl⟩

end Scan

/-! ## Successive calls -/

/-- The cursor is at an index, with its page kept if the index is inside one. -/
structure Cursor.At (c : Cursor) (d : Directory) (i : Nat) : Prop where
  index : c.dirIndex = i
  le : i ≤ d.count
  page : i % 64 ≠ 0 → c.page = some (i / 64 * 4096)

section Calls

variable {d : Directory} (shifted : Nat → DirEntry) {c : Cursor} {i : Nat}

/-- A call that does not have to leave a kept page. -/
theorem fatxGetNextDirEntry_spec (hsize : pageEnd d * 64 < 2 ^ 32) (hc : c.At d i)
    (hstay : i % 64 ≠ 0 → ∃ k, i ≤ k ∧ k / 64 = i / 64 ∧ (d.slot k).isDeleted = false)
    (junk : Nat) :
    (d.liveFrom (pageEnd d - i) i = [] →
      ∃ c', fatxGetNextDirEntry d shifted junk c = some (c', none)) ∧
    ∀ j rest, d.liveFrom (pageEnd d - i) i = j :: rest →
      fatxGetNextDirEntry d shifted junk c =
        some (⟨some (j / 64 * 4096), j⟩, some (j, d.slot j)) := by
  have hfile := d.size_lt
  have hle := hc.le
  have hend : (pageEnd d = (d.count + 63) / 64 * 64) := rfl
  have hfuel : pageEnd d - i < enough d := by
    unfold enough
    omega
  unfold fatxGetNextDirEntry
  rw [hc.index]
  by_cases h0 : i % 64 = 0
  · simp only [if_pos (Or.inr h0 : c.page = none ∨ i % 64 = 0),
      fileOffset_own (show i * 64 < 2 ^ 32 by omega), mappable_page]
    by_cases hlast : i = d.count
    · rw [if_pos (by unfold fileSize; omega), show pageEnd d - i = 0 by omega]
      exact ⟨fun _ => ⟨_, rfl⟩, fun j rest h => absurd h nofun⟩
    · rw [if_neg (by unfold fileSize; omega)]
      simp only [Bool.not_true, Bool.false_eq_true, if_false]
      exact scan_own hsize (by omega) hfuel
  · obtain ⟨k, hik, hpage, hk⟩ := hstay h0
    have hkept : ¬(c.page = none ∨ i % 64 = 0) := by
      rw [hc.page h0]
      simp [h0]
    rw [if_neg hkept, hc.page h0, Option.getD_some, scan_kept hik hpage rfl hk (i / 64 * 4096)]
    exact scan_own hsize (by omega) hfuel

/-- After an entry without deleted tail, the page has more to show. -/
theorem stays_of_not_tail (h : ¬DeletedTail d (i - 1)) (hpos : 0 < i) (h0 : i % 64 ≠ 0) :
    ∃ k, i ≤ k ∧ k / 64 = i / 64 ∧ (d.slot k).isDeleted = false := by
  by_contra hnone
  refine h ⟨by omega, ?_⟩
  intro k h1 h2
  by_contra hk
  exact hnone ⟨k, by omega, by omega, by simpa using hk⟩

variable (junk : Nat → Nat)

/-- The cursor after `n` entries, when no call before had to leave a kept
page. -/
theorem cursor_spec (hsize : pageEnd d * 64 < 2 ^ 32) {n : Nat} (hn : n ≤ d.live.length)
    (hclean : ∀ m i, m + 1 < n → d.live[m]? = some i → ¬DeletedTail d i) :
    ∃ i, (cursor d shifted junk n).At d i ∧ (shown d).drop n = d.liveFrom (pageEnd d - i) i ∧
      (n = 0 ∧ i = 0 ∨ ∃ m, n = m + 1 ∧ 0 < i ∧ d.live[m]? = some (i - 1)) := by
  induction n with
  | zero => exact ⟨0, ⟨rfl, Nat.zero_le _, fun h => absurd rfl h⟩, rfl, Or.inl ⟨rfl, rfl⟩⟩
  | succ n ih =>
    obtain ⟨i, hat, hdrop, hprev⟩ := ih (by omega) (fun m i hm => hclean m i (by omega))
    obtain ⟨more, hshown, -⟩ := shown_eq d
    have hget : d.live[n]? = some d.live[n] := List.getElem?_eq_getElem (by omega)
    have hcons : (shown d).drop n = d.live[n] :: (shown d).drop (n + 1) := by
      rw [hshown, List.drop_append_of_le_length (by omega),
        List.drop_append_of_le_length (by omega),
        List.drop_eq_getElem_cons (show n < d.live.length by omega), List.cons_append]
    generalize d.live[n] = j at hget hcons
    rw [hdrop] at hcons
    have hj := (mem_live.1 (List.mem_of_getElem? hget)).1
    have hstay : i % 64 ≠ 0 →
        ∃ k, i ≤ k ∧ k / 64 = i / 64 ∧ (d.slot k).isDeleted = false := by
      intro h0
      obtain ⟨m, hm, hpos, hlive⟩ := hprev.resolve_left (by omega)
      exact stays_of_not_tail (hclean m (i - 1) (by omega) hlive) hpos h0
    obtain ⟨-, hfound⟩ := fatxGetNextDirEntry_spec shifted hsize hat hstay (junk n)
    obtain ⟨-, -, -, -, -, hrest⟩ := liveFrom_cons hcons
    have hcursor : cursor d shifted junk (n + 1) = ⟨some (j / 64 * 4096), j + 1⟩ := by
      rw [cursor, hfound j _ hcons]
    have hle := hat.le
    refine ⟨j + 1, ?_, ?_, Or.inr ⟨n, rfl, by omega, hget⟩⟩
    · rw [hcursor]
      refine ⟨rfl, by omega, ?_⟩
      intro h0
      show some (j / 64 * 4096) = some ((j + 1) / 64 * 4096)
      rw [show j / 64 = (j + 1) / 64 by omega]
    · rw [hrest]
      congr 1
      unfold pageEnd
      omega

/-- The `n`-th call, when no call up to it had to leave a kept page. -/
theorem answer_spec (hsize : pageEnd d * 64 < 2 ^ 32) {n : Nat} (hn : n ≤ d.live.length)
    (hclean : ∀ m i, m < n → d.live[m]? = some i → ¬DeletedTail d i) :
    answer d shifted junk n = some ((shown d)[n]?.map fun i => (i, d.slot i)) := by
  obtain ⟨i, hat, hdrop, hprev⟩ :=
    cursor_spec shifted junk hsize hn (fun m i hm => hclean m i (by omega))
  have hstay : i % 64 ≠ 0 →
      ∃ k, i ≤ k ∧ k / 64 = i / 64 ∧ (d.slot k).isDeleted = false := by
    intro h0
    obtain ⟨m, hm, hpos, hlive⟩ := hprev.resolve_left (by omega)
    exact stays_of_not_tail (hclean m (i - 1) (by omega) hlive) hpos h0
  obtain ⟨hnone, hfound⟩ := fatxGetNextDirEntry_spec shifted hsize hat hstay (junk n)
  unfold answer
  rw [← List.head?_drop, hdrop]
  cases hrest : d.liveFrom (pageEnd d - i) i with
  | nil =>
    obtain ⟨c', hc'⟩ := hnone hrest
    rw [hc']
    rfl
  | cons j rest =>
    rw [hfound j rest hrest]
    rfl

variable {shifted} {junk}

/-- The call after an entry with a deleted tail depends on the uninitialised
offset: one value ends the enumeration, another shows the page again. -/
theorem answer_after_tail {n : Nat}
    (hcursor : cursor d shifted junk n = ⟨some (i / 64 * 4096), i + 1⟩)
    (hi : i < d.count) (hlive : (d.slot i).isDeleted = false)
    (hend : ∀ l, l ≤ i → (d.slot l).isEnd = false) (htail : DeletedTail d i) :
    (junk n = 2 ^ 32 - 4097 → answer d shifted junk n = some none) ∧
    (junk n = wsub (i / 64 * 4096) 4096 → ∃ x, answer d shifted junk n = some (some x)) := by
  obtain ⟨hlast, hdel⟩ := htail
  have hsize := d.size_lt
  generalize hr : 64 - (i + 1) % 64 = r
  obtain ⟨fuel, hfuel⟩ : ∃ fuel, enough d = fuel + r := ⟨enough d - r, by unfold enough; omega⟩
  have hcall : fatxGetNextDirEntry d shifted (junk n) (cursor d shifted junk n) =
      scan d shifted (fuel + r) (junk n) (i / 64 * 4096) (i + 1) := by
    have hkept : ¬((some (i / 64 * 4096) : Option Nat) = none ∨ (i + 1) % 64 = 0) := by
      simp only [reduceCtorEq, false_or]
      omega
    rw [hcursor, fatxGetNextDirEntry, if_neg hkept, hfuel]
    rfl
  have hleaves : scan d shifted (fuel + r) (junk n) (i / 64 * 4096) (i + 1) = _ :=
    scan_leaves (by omega) (by omega) (by omega) (fun k h1 h2 => hdel k (by omega) (by omega))
  unfold answer
  rw [hcall, hleaves]
  constructor
  · intro hj
    have hpast : d.fileSize ≤ wadd (junk n) 4096 := by
      rw [hj, wadd_of_lt (by omega)]
      unfold fileSize
      omega
    rw [if_pos (.inl hpast)]
    rfl
  · intro hj
    have hback : wadd (junk n) 4096 = i / 64 * 4096 := by
      rw [hj, wadd_eq, wsub_eq]
      omega
    have hinside : ¬(d.fileSize ≤ i / 64 * 4096 ∨ mappable (i / 64 * 4096) = false) := by
      rw [mappable_page]
      unfold fileSize
      simp only [Bool.true_eq_false, or_false]
      omega
    rw [hback, if_neg hinside]
    have hpos : i % 64 < fuel := by
      unfold enough at hfuel
      omega
    obtain ⟨c, j, e, hscan⟩ : ∃ c j e, scan d shifted fuel (i / 64 * 4096) (i / 64 * 4096)
        (i + 1 + r) = some (c, some (j, e)) :=
      scan_shows (by omega) rfl (fun l _ hl => hend l hl) hlive hpos
    rw [hscan]
    exact ⟨_, rfl⟩

end Calls

/-- The calls return the live entries of the directory in order, and then report that there
are no more, whatever the uninitialised offsets are. -/
def Enumerates (d : Directory) (shifted : Nat → DirEntry) : Prop :=
  ∀ (junk : Nat → Nat) (n : Nat), n ≤ d.live.length →
    answer d shifted junk n = some (d.live[n]?.map fun i => (i, d.slot i))

/-- The first entry with a deleted tail is returned, and the call after it goes wrong. -/
theorem Enumerates.not_tail {d : Directory} {shifted : Nat → DirEntry}
    (h : Enumerates d shifted) (hsize : pageEnd d * 64 < 2 ^ 32) :
    ∀ i, i ∈ d.live → ¬DeletedTail d i := by
  by_contra hbad
  have hex : ∃ n : Nat, ∃ i : Nat, d.live[n]? = some i ∧ DeletedTail d i := by
    simp only [not_forall, not_not] at hbad
    obtain ⟨i, hi, htail⟩ := hbad
    obtain ⟨n, hn⟩ := List.getElem?_of_mem hi
    exact ⟨n, i, hn, htail⟩
  classical
  obtain ⟨i, hi, htail⟩ := Nat.find_spec hex
  have hfirst : ∀ m j, m < Nat.find hex → d.live[m]? = some j → ¬DeletedTail d j :=
    fun m j hm hj ht => Nat.find_min hex hm ⟨j, hj, ht⟩
  generalize hm : Nat.find hex = m
  rw [hm] at hi hfirst
  obtain ⟨hlt, -⟩ := List.getElem?_eq_some_iff.1 hi
  obtain ⟨hicount, hlive, hend⟩ := mem_live.1 (List.mem_of_getElem? hi)
  have hat : ∀ junk, cursor d shifted junk (m + 1) = ⟨some (i / 64 * 4096), i + 1⟩ := by
    intro junk
    obtain ⟨j, hcursor, -, hprev⟩ := cursor_spec shifted junk hsize
      (show m + 1 ≤ d.live.length by omega) fun l k hl => hfirst l k (by omega)
    obtain ⟨l, hl, hpos, hget⟩ := hprev.resolve_left (by omega)
    obtain rfl : m = l := Nat.succ.inj hl
    have hj : i = j - 1 := Option.some.inj (hi.symm.trans hget)
    have hpage := hcursor.page
    have hlast := htail.1
    rw [show j / 64 = i / 64 by omega] at hpage
    rw [← hpage (by omega), show i + 1 = j by omega, ← hcursor.index]
  have hends := (answer_after_tail (hat fun _ => 2 ^ 32 - 4097) hicount hlive hend htail).1 rfl
  obtain ⟨x, hshows⟩ := (answer_after_tail (hat fun _ => wsub (i / 64 * 4096) 4096) hicount
    hlive hend htail).2 rfl
  have h1 := h (fun _ => 2 ^ 32 - 4097) (m + 1) (by omega)
  have h2 := h (fun _ => wsub (i / 64 * 4096) 4096) (m + 1) (by omega)
  rw [hends] at h1
  rw [hshows, ← h1] at h2
  exact absurd h2 (by simp)

theorem enumerates_iff {d : Directory} (hsize : pageEnd d * 64 < 2 ^ 32)
    (shifted : Nat → DirEntry) : Enumerates d shifted ↔
      (∀ j ∈ shown d, j < d.count) ∧ ∀ i, i ∈ d.live → ¬DeletedTail d i := by
  obtain ⟨more, hshown, hfar⟩ := shown_eq d
  have hnone : (∀ j ∈ shown d, j < d.count) ↔ more = [] := by
    rw [hshown, List.eq_nil_iff_forall_not_mem]
    constructor
    · exact fun h j hj => Nat.not_lt.2 (hfar j hj) (h j (List.mem_append_right _ hj))
    · intro h j hj
      exact (mem_live.1 ((List.mem_append.1 hj).resolve_right (h j))).1
  rw [hnone]
  constructor
  · intro h
    have htail := h.not_tail hsize
    have hlast := answer_spec shifted (fun _ => 0) hsize (Nat.le_refl d.live.length)
      fun m i _ hi => htail i (List.mem_of_getElem? hi)
    rw [h _ _ (Nat.le_refl _), hshown] at hlast
    refine ⟨?_, htail⟩
    cases more with
    | nil => rfl
    | cons j more => simp at hlast
  · rintro ⟨rfl, htail⟩ junk n hn
    rw [List.append_nil] at hshown
    rw [answer_spec shifted junk hsize hn fun m i _ hi => htail i (List.mem_of_getElem? hi),
      hshown]

/-- The calls return the live entries in order and then report the end, whatever the stack
held, exactly when nothing behind the end of the directory in its last page looks live, and no
live entry is followed by deleted entries only up to the end of its page. -/
theorem enumeration_iff {d : Directory} (hsize : pageEnd d * 64 < 2 ^ 32)
    (shifted : Nat → DirEntry) :
    (∀ (junk : Nat → Nat) (n : Nat), n ≤ d.live.length →
      answer d shifted junk n = some (d.live[n]?.map fun i => (i, d.slot i))) ↔
      (∀ j ∈ shown d, j < d.count) ∧ ∀ i ∈ d.live, ¬DeletedTail d i :=
  enumerates_iff hsize shifted

/-- An entry with a given first byte. -/
def markedEntry (filenameLength : UInt8) : DirEntry :=
  ⟨filenameLength, 0, List.replicate 42 0x41, rfl, 0, 0, 0, 0, 0, 0, 0, 0⟩

/-- Two pages: a file, deleted entries up to the end of the page, and a file. -/
def twoFiles : Directory where
  slot i := markedEntry (if i = 0 ∨ i = 64 then 5 else if i < 64 then 0xe5 else 0xff)
  count := 128
  size_lt := by decide

/-- Three files in clusters of eight entries.  The last page has an END marker behind them and
a name behind the end of the directory. -/
def threeFiles : Directory where
  slot i := markedEntry
    (if i = 0 ∨ i = 63 ∨ i = 64 ∨ i = 80 then 5 else if i < 64 then 0xe5 else 0xff)
  count := 72
  size_lt := by decide

theorem enumeration_iff_threeFiles :
    pageEnd threeFiles * 64 < 2 ^ 32 ∧ ∀ junk n, n ≤ 3 →
      answer threeFiles threeFiles.slot junk n =
        some (([0, 63, 64] : List Nat)[n]?.map fun i => (i, threeFiles.slot i)) := by
  have hsize : pageEnd threeFiles * 64 < 2 ^ 32 := by decide
  have hlive : threeFiles.live = [0, 63, 64] := by decide +kernel
  have hshown : ∀ j ∈ shown threeFiles, j < threeFiles.count := by decide +kernel
  have h := (enumeration_iff hsize threeFiles.slot).2
  rw [hlive] at h
  refine ⟨hsize, h ⟨hshown, ?_⟩⟩
  intro i hi htail
  have hsome : ∀ i ∈ [0, 63, 64], i % 64 = 63 ∨
      ∃ k, k < 128 ∧ i < k ∧ k / 64 = i / 64 ∧ (threeFiles.slot k).isDeleted = false := by
    decide +kernel
  rcases hsome i hi with hlast | ⟨k, -, h1, h2, h3⟩
  · exact htail.1 hlast
  · exact absurd ((htail.2 k h1 h2).symm.trans h3) nofun

/-- With the second file two pages on, an offset left over from another call ends
the enumeration after the first. -/
theorem second_file_missed :
    twoFiles.live = [0, 64] ∧
      answer twoFiles twoFiles.slot (fun _ => 0xFFFFE000) 1 = some none := by
  exact ⟨by decide +kernel, by decide +kernel⟩

end Roswell.Ports.FatxEnum
