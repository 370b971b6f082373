import Roswell.Ports.TitleVm

/-!
# The region list of the title virtual-memory manager

`RegionsOk` is the invariant of the list: regions are page aligned, not empty,
inside the title range, sorted by base and disjoint.  On such a list the end of
a region never wraps, and each list routine has one specification lemma: the
search returns the only region that holds the address, the overlap test and the
gap search are right about every region, and insertion, removal, trimming and
splitting keep the invariant.  The gap search returns the lowest gap, or from
the top the highest one.
-/

namespace Roswell.Ports.TitleVm

open Verified.Word PageTables

/-- A region of the title range. -/
structure TitleRegion (r : Region) : Prop where
  base_aligned : pageSize ∣ r.base
  size_aligned : pageSize ∣ r.size
  size_pos : 0 < r.size
  low : nxvLowest ≤ r.base
  high : r.base + r.size ≤ nxvHighest

/-- `a` ends at or before the start of `b`. -/
def Before (a b : Region) : Prop := a.base + a.size ≤ b.base

/-- The region list is well formed. -/
structure RegionsOk (l : List Region) : Prop where
  title : ∀ r ∈ l, TitleRegion r
  sorted : l.Pairwise Before

/-- The region holds the address. -/
def Region.Holds (r : Region) (va : Nat) : Prop := r.base ≤ va ∧ va < r.base + r.size

/-- The bytes reserved by a list of regions. -/
def totalSize (l : List Region) : Nat := (l.map Region.size).sum

theorem nxvHighest_lt : nxvHighest < 2 ^ 31 := by decide

theorem TitleRegion.limit_eq {r : Region} (h : TitleRegion r) : r.limit = r.base + r.size := by
  have := h.high
  have := nxvHighest_lt
  exact wadd_of_lt (by omega)

@[simp] theorem totalSize_nil : totalSize [] = 0 := rfl

@[simp] theorem totalSize_cons (r : Region) (l : List Region) :
    totalSize (r :: l) = r.size + totalSize l := by
  simp [totalSize]

@[simp] theorem totalSize_append (l l' : List Region) :
    totalSize (l ++ l') = totalSize l + totalSize l' := by
  simp [totalSize]

namespace RegionsOk

variable {l before after : List Region} {r r' : Region}

theorem nil : RegionsOk [] := ⟨by simp, List.Pairwise.nil⟩

theorem tail (h : RegionsOk (r :: l)) : RegionsOk l :=
  ⟨fun x hx => h.title x (List.mem_cons_of_mem _ hx), (List.pairwise_cons.1 h.sorted).2⟩

theorem head_before (h : RegionsOk (r :: l)) : ∀ x ∈ l, Before r x :=
  (List.pairwise_cons.1 h.sorted).1

theorem cons (hr : TitleRegion r) (hl : RegionsOk l) (hb : ∀ x ∈ l, Before r x) :
    RegionsOk (r :: l) := by
  refine ⟨?_, List.pairwise_cons.2 ⟨hb, hl.sorted⟩⟩
  intro x hx
  rcases List.mem_cons.1 hx with rfl | hx
  · exact hr
  · exact hl.title x hx

/-- Disjoint regions above `lo` reserve no more than the range above `lo`. -/
theorem totalSize_le (h : RegionsOk l) {lo : Nat} (hlo : ∀ x ∈ l, lo ≤ x.base) :
    totalSize l ≤ nxvHighest - lo := by
  induction l generalizing lo with
  | nil => simp
  | cons r l ih =>
    have hr := h.title r List.mem_cons_self
    have hrest := ih h.tail h.head_before
    have hhigh := hr.high
    have hbase := hlo r List.mem_cons_self
    rw [totalSize_cons]
    omega

theorem totalSize_lt (h : RegionsOk l) : totalSize l < 2 ^ 31 := by
  have hle := h.totalSize_le (fun x hx => (h.title x hx).low)
  have := nxvHighest_lt
  omega

/-! ## Search -/

/-- The search returns the region that holds the address, in its place. -/
theorem findRegion_some (h : RegionsOk l) {va : Nat}
    (hf : nxvFindRegion l va = some (before, r, after)) :
    l = before ++ r :: after ∧ r.Holds va := by
  induction l generalizing before with
  | nil => simp [nxvFindRegion] at hf
  | cons x l ih =>
    have hx := (h.title x List.mem_cons_self).limit_eq
    rw [nxvFindRegion] at hf
    by_cases hlo : va < x.base
    · rw [if_pos hlo] at hf
      contradiction
    split_ifs at hf with hhi
    · cases hf
      rw [hx] at hhi
      exact ⟨rfl, Nat.le_of_not_lt hlo, hhi⟩
    cases hrest : nxvFindRegion l va with
    | none => simp [hrest] at hf
    | some found =>
      simp only [hrest, Option.some.injEq, Prod.mk.injEq] at hf
      obtain ⟨rfl, rfl, rfl⟩ := hf
      obtain ⟨hl, hh⟩ := ih h.tail hrest
      exact ⟨by rw [hl]; rfl, hh⟩

theorem findRegion_none (h : RegionsOk l) {va : Nat} (hf : nxvFindRegion l va = none) :
    ∀ x ∈ l, ¬x.Holds va := by
  induction l with
  | nil => simp
  | cons y l ih =>
    have hy := (h.title y List.mem_cons_self).limit_eq
    rw [nxvFindRegion] at hf
    by_cases hlo : va < y.base
    · intro x hx hh
      have hh1 := hh.1
      rcases List.mem_cons.1 hx with rfl | hx
      · omega
      · have hb : y.base + y.size ≤ x.base := h.head_before x hx
        omega
    · rw [if_neg hlo] at hf
      by_cases hhi : va < y.limit
      · rw [if_pos hhi] at hf
        contradiction
      rw [if_neg hhi] at hf
      rw [hy] at hhi
      have hrest : nxvFindRegion l va = none := by
        cases hr : nxvFindRegion l va with
        | none => rfl
        | some found => simp [hr] at hf
      intro x hx hh
      rcases List.mem_cons.1 hx with rfl | hx
      · exact hhi hh.2
      · exact ih h.tail hrest x hx hh

/-- A range the overlap test lets through misses every region. -/
theorem overlaps_false (h : RegionsOk l) {start stop : Nat}
    (hf : nxvRangeOverlapsRegion l start stop = false) :
    ∀ x ∈ l, stop ≤ x.base ∨ x.base + x.size ≤ start := by
  induction l with
  | nil => simp
  | cons y l ih =>
    have hy := (h.title y List.mem_cons_self).limit_eq
    rw [nxvRangeOverlapsRegion] at hf
    intro x hx
    by_cases hstop : stop ≤ y.base
    · rcases List.mem_cons.1 hx with rfl | hx
      · exact .inl hstop
      · have hb : y.base + y.size ≤ x.base := h.head_before x hx
        exact .inl (by omega)
    rw [if_neg hstop] at hf
    by_cases hstart : start < y.limit
    · rw [if_pos hstart] at hf
      contradiction
    · rw [if_neg hstart] at hf
      rcases List.mem_cons.1 hx with rfl | hx
      · exact .inr (by omega)
      · exact ih h.tail hf x hx

/-! ## Insertion -/

theorem mem_insertByBase {x : Region} : x ∈ insertByBase r l ↔ x = r ∨ x ∈ l := by
  induction l with
  | nil => simp [insertByBase]
  | cons y l ih =>
    rw [insertByBase]
    split_ifs with hlt
    · rw [List.mem_cons]
    · rw [List.mem_cons, List.mem_cons, ih]
      exact or_left_comm

theorem totalSize_insertByBase (r : Region) (l : List Region) :
    totalSize (insertByBase r l) = r.size + totalSize l := by
  induction l with
  | nil => simp [insertByBase]
  | cons y l ih =>
    rw [insertByBase]
    split_ifs with hlt
    · rw [totalSize_cons]
    · rw [totalSize_cons, ih, totalSize_cons]
      omega

/-- Insertion of a region that misses all others. -/
theorem insert (h : RegionsOk l) (hr : TitleRegion r)
    (hmiss : ∀ x ∈ l, Before r x ∨ Before x r) : RegionsOk (insertByBase r l) := by
  induction l with
  | nil => exact cons hr nil (by simp)
  | cons y l ih =>
    have hy := h.title y List.mem_cons_self
    rw [insertByBase]
    split_ifs with hlt
    · refine cons hr h ?_
      intro x hx
      have hbase : r.base < x.base := by
        rcases List.mem_cons.1 hx with rfl | hx
        · exact hlt
        · have hb : y.base + y.size ≤ x.base := h.head_before x hx
          omega
      rcases hmiss x hx with hb | hb
      · exact hb
      · have hb' : x.base + x.size ≤ r.base := hb
        omega
    · have hyr : Before y r := by
        rcases hmiss y List.mem_cons_self with hb | hb
        · have hb' : r.base + r.size ≤ y.base := hb
          have := hr.size_pos
          omega
        · exact hb
      refine cons hy (ih h.tail (fun x hx => hmiss x (List.mem_cons_of_mem _ hx))) ?_
      intro x hx
      rcases mem_insertByBase.1 hx with rfl | hx
      · exact hyr
      · exact h.head_before x hx

/-! ## Removal, trimming and splitting -/

theorem before_mem (h : RegionsOk (before ++ r :: after)) : ∀ x ∈ before, Before x r :=
  fun x hx => (List.pairwise_append.1 h.sorted).2.2 x hx r List.mem_cons_self

theorem after_mem (h : RegionsOk (before ++ r :: after)) : ∀ x ∈ after, Before r x :=
  (List.pairwise_cons.1 (List.pairwise_append.1 h.sorted).2.1).1

theorem mid (h : RegionsOk (before ++ r :: after)) : TitleRegion r :=
  h.title r (by simp)

/-- A region may be replaced by parts of it. -/
theorem splice (h : RegionsOk (before ++ r :: after)) {parts : List Region}
    (hp : RegionsOk parts)
    (hin : ∀ x ∈ parts, r.base ≤ x.base ∧ x.base + x.size ≤ r.base + r.size) :
    RegionsOk (before ++ (parts ++ after)) := by
  have hpw := List.pairwise_append.1 h.sorted
  have hafter : ∀ x ∈ parts, ∀ y ∈ after, Before x y :=
    fun x hx y hy => (hin x hx).2.trans (h.after_mem y hy)
  have hbefore : ∀ x ∈ before, ∀ y ∈ parts, Before x y :=
    fun x hx y hy => (h.before_mem x hx).trans (hin y hy).1
  refine ⟨?_, List.pairwise_append.2 ⟨hpw.1, List.pairwise_append.2
    ⟨hp.sorted, (List.pairwise_cons.1 hpw.2.1).2, hafter⟩, ?_⟩⟩
  · intro x hx
    rcases List.mem_append.1 hx with hx | hx
    · exact h.title x (List.mem_append_left _ hx)
    · rcases List.mem_append.1 hx with hx | hx
      · exact hp.title x hx
      · exact h.title x (by simp [hx])
  · intro x hx y hy
    rcases List.mem_append.1 hy with hy | hy
    · exact hbefore x hx y hy
    · exact hpw.2.2 x hx y (List.mem_cons_of_mem _ hy)

/-- Insertion between the regions that start at or below the new one and the others. -/
theorem insertByBase_append (hb : ∀ x ∈ before, x.base ≤ r.base)
    (ha : ∀ x ∈ after, r.base < x.base) :
    insertByBase r (before ++ after) = before ++ r :: after := by
  induction before with
  | nil =>
    cases after with
    | nil => rfl
    | cons y l => exact if_pos (ha y List.mem_cons_self)
  | cons y l ih =>
    rw [List.cons_append, insertByBase, if_neg (Nat.not_lt.2 (hb y List.mem_cons_self)),
      ih fun x hx => hb x (List.mem_cons_of_mem _ hx), List.cons_append]

end RegionsOk

/-! ## Gap search -/

/-- The range `[start, start + size)` is free title space. -/
structure Gap (l : List Region) (start size : Nat) : Prop where
  aligned : nxvGranularity ∣ start
  low : nxvLowest ≤ start
  high : start + size ≤ nxvHighest
  miss : ∀ x ∈ l, start + size ≤ x.base ∨ x.base + x.size ≤ start

theorem granularity_dvd_highest : nxvGranularity ∣ nxvHighest := by decide

variable {l : List Region}

/-- Bottom-up: every region passed over ends at or before the cursor, and no gap at or above
the cursor is passed over. -/
theorem findGapUp_spec (passed : List Region) {size cursor : Nat}
    (h : RegionsOk (passed ++ l)) (hsize : size ≤ nxvHighest)
    (hal : nxvGranularity ∣ cursor) (hlow : nxvLowest ≤ cursor) (hhigh : cursor ≤ nxvHighest)
    (hpassed : ∀ x ∈ passed, x.base + x.size ≤ cursor) :
    (findGapUp size cursor l ≠ 0 → Gap (passed ++ l) (findGapUp size cursor l) size) ∧
      ∀ b, Gap (passed ++ l) b size → cursor ≤ b →
        findGapUp size cursor l ≠ 0 ∧ findGapUp size cursor l ≤ b := by
  have hmax := nxvHighest_lt
  have hpos : 0 < nxvLowest := by decide
  induction l generalizing cursor passed with
  | nil =>
    rw [findGapUp, wadd_of_lt (by omega), List.append_nil]
    split_ifs with hfit
    · exact ⟨fun _ => ⟨hal, hlow, hfit, fun x hx => .inr (hpassed x hx)⟩,
        fun b _ hle => ⟨by omega, hle⟩⟩
    · refine ⟨fun hne => absurd rfl hne, fun b hgap hle => ?_⟩
      have := hgap.high
      omega
  | cons r l ih =>
    have hr := h.mid
    have hlim := hr.limit_eq
    have hrhigh := hr.high
    rw [findGapUp]
    by_cases hfit : cursor ≤ r.base ∧ size ≤ r.base - cursor
    · rw [if_pos hfit]
      refine ⟨fun _ => ⟨hal, hlow, by omega, ?_⟩, fun b _ hle => ⟨by omega, hle⟩⟩
      intro x hx
      rcases List.mem_append.1 hx with hx | hx
      · exact .inr (hpassed x hx)
      · rcases List.mem_cons.1 hx with rfl | hx
        · exact .inl (by omega)
        · have hb : r.base + r.size ≤ x.base := h.after_mem x hx
          exact .inl (by omega)
    rw [if_neg hfit, hlim]
    -- a gap that does not end before this region starts after it
    have hafter : ∀ b, Gap (passed ++ r :: l) b size → cursor ≤ b → r.base + r.size ≤ b := by
      intro b hgap hle
      have := hgap.miss r (by simp)
      omega
    rw [List.append_cons] at h hafter ⊢
    have hpassed' : ∀ {next}, cursor ≤ next → r.base + r.size ≤ next →
        ∀ x ∈ passed ++ [r], x.base + x.size ≤ next := by
      intro next hnext hend x hx
      rcases List.mem_append.1 hx with hx | hx
      · exact (hpassed x hx).trans hnext
      · rw [List.mem_singleton.1 hx]
        exact hend
    split_ifs with hcur
    · have hword : r.base + r.size + (nxvGranularity - 1) < 2 ^ 32 := by
        have hg : nxvGranularity - 1 < 2 ^ 16 := by decide
        omega
      have hup := le_roundUp (by decide) hword
      have hnext : ∀ {x}, nxvGranularity ∣ x → r.base + r.size ≤ x →
          roundUp (r.base + r.size) nxvGranularity ≤ x :=
        fun hx hle => roundUp_le (by decide) hx hle hword
      obtain ⟨hfound, hleast⟩ := ih (passed ++ [r]) h (roundUp_dvd _ _) (by omega)
        (hnext granularity_dvd_highest hrhigh) (hpassed' (by omega) hup)
      exact ⟨hfound, fun b hgap hle => hleast b hgap (hnext hgap.aligned (hafter b hgap hle))⟩
    · exact ih (passed ++ [r]) h hal hlow hhigh (hpassed' (Nat.le_refl _) (by omega))

/-- Top-down: every region passed over starts at or after the end of the range, and no gap
at or below the cursor is passed over. -/
theorem findGapDown_spec (passed : List Region) {size cursor : Nat}
    (h : RegionsOk (l ++ passed)) (hal : nxvGranularity ∣ cursor)
    (hhigh : cursor + size ≤ nxvHighest) (hpassed : ∀ x ∈ passed, cursor + size ≤ x.base) :
    (findGapDown size cursor l.reverse ≠ 0 →
        Gap (l ++ passed) (findGapDown size cursor l.reverse) size) ∧
      ∀ b, Gap (l ++ passed) b size → b ≤ cursor →
        findGapDown size cursor l.reverse ≠ 0 ∧ b ≤ findGapDown size cursor l.reverse := by
  have hmax := nxvHighest_lt
  have hpos : 0 < nxvLowest := by decide
  have hstop : ∀ {l : List Region} {cursor : Nat}, nxvGranularity ∣ cursor →
      cursor + size ≤ nxvHighest →
      (∀ x ∈ l, cursor + size ≤ x.base ∨ x.base + x.size ≤ cursor) →
      ((if nxvLowest ≤ cursor then cursor else 0) ≠ 0 →
        Gap l (if nxvLowest ≤ cursor then cursor else 0) size) ∧
      ∀ b, Gap l b size → b ≤ cursor → (if nxvLowest ≤ cursor then cursor else 0) ≠ 0 ∧
        b ≤ if nxvLowest ≤ cursor then cursor else 0 := by
    intro l cursor hal hhigh hmiss
    split_ifs with hlow
    · exact ⟨fun _ => ⟨hal, hlow, hhigh, hmiss⟩, fun b _ hle => ⟨by omega, hle⟩⟩
    · exact ⟨fun hne => absurd rfl hne, fun b hgap hle => absurd (hgap.low.trans hle) hlow⟩
  induction l using List.reverseRecOn generalizing cursor passed with
  | nil =>
    exact hstop hal hhigh fun x hx => .inl (hpassed x hx)
  | append_singleton l r ih =>
    rw [List.append_assoc, List.singleton_append] at h ⊢
    have hr := h.mid
    have hrhigh := hr.high
    rw [List.reverse_append, List.reverse_singleton, List.singleton_append, findGapDown,
      hr.limit_eq]
    by_cases hend : r.base + r.size ≤ cursor
    · rw [if_pos hend]
      refine hstop hal hhigh ?_
      intro x hx
      rcases List.mem_append.1 hx with hx | hx
      · have hb : x.base + x.size ≤ r.base := h.before_mem x hx
        exact .inr (by omega)
      · rcases List.mem_cons.1 hx with rfl | hx
        · exact .inr hend
        · exact .inl (hpassed x hx)
    rw [if_neg hend]
    -- a gap that does not start after this region ends before it
    have hbefore : ∀ b, Gap (l ++ r :: passed) b size → b ≤ cursor → b + size ≤ r.base := by
      intro b hgap hle
      have := hgap.miss r (by simp)
      omega
    have hlowest : nxvLowest < 2 ^ 17 := by decide
    rw [wadd_of_lt (by omega)]
    by_cases hroom : r.base < size + nxvLowest
    · rw [if_pos hroom]
      refine ⟨absurd rfl, fun b hgap hle => ?_⟩
      have := hbefore b hgap hle
      have := hgap.low
      omega
    rw [if_neg hroom, wsub_of_le (by omega) (by omega)]
    have hdown := roundDown_le (r.base - size) nxvGranularity
    obtain ⟨hfound, hgreatest⟩ := ih (r :: passed) h
      (roundDown_dvd (r.base - size) nxvGranularity) (by omega) (by
        intro x hx
        rcases List.mem_cons.1 hx with rfl | hx
        · omega
        · have hb : r.base + r.size ≤ x.base := h.after_mem x hx
          omega)
    refine ⟨hfound, fun b hgap hle => hgreatest b hgap ?_⟩
    have := hbefore b hgap hle
    exact le_roundDown (by decide) hgap.aligned (by omega)

/-- What `NxvFindGap` returns is free title space, and no gap lies before it. -/
theorem RegionsOk.findGap_spec (h : RegionsOk l) {size : Nat}
    (hsize : size ≤ nxvHighest) (topDown : Bool) :
    (nxvFindGap l size topDown ≠ 0 → Gap l (nxvFindGap l size topDown) size) ∧
      ∀ b, Gap l b size → nxvFindGap l size topDown ≠ 0 ∧
        if topDown then b ≤ nxvFindGap l size topDown else nxvFindGap l size topDown ≤ b := by
  have hmax := nxvHighest_lt
  unfold nxvFindGap
  cases topDown with
  | true =>
    rw [wsub_of_le hsize (by omega)]
    have hdown := roundDown_le (nxvHighest - size) nxvGranularity
    have hspec := findGapDown_spec [] (by rwa [List.append_nil])
      (roundDown_dvd (nxvHighest - size) _) (show _ + size ≤ _ by omega) (by simp)
    rw [List.append_nil] at hspec
    refine ⟨hspec.1, fun b hgap => hspec.2 b hgap ?_⟩
    have := hgap.high
    exact le_roundDown (by decide) hgap.aligned (by omega)
  | false =>
    have hspec := findGapUp_spec [] h hsize (by decide) (Nat.le_refl _) (by decide) (by simp)
    exact ⟨hspec.1, fun b hgap => hspec.2 b hgap hgap.low⟩

theorem RegionsOk.findGap (h : RegionsOk l) {size : Nat}
    (hsize : size ≤ nxvHighest) {topDown : Bool} (hne : nxvFindGap l size topDown ≠ 0) :
    Gap l (nxvFindGap l size topDown) size := (h.findGap_spec hsize topDown).1 hne

/-! ## The gap search is optimal -/

/-- `NxvFindGap` returns the lowest gap bottom-up and the highest one top-down,
and fails exactly when there is none. -/
theorem findGap_optimal {l : List Region} (h : RegionsOk l) (size : Nat)
    (hsize : size ≤ nxvHighest - nxvLowest) :
    (nxvFindGap l size false = 0 ↔ ∀ b, ¬Gap l b size) ∧
      (nxvFindGap l size false ≠ 0 → IsLeast {b | Gap l b size} (nxvFindGap l size false)) ∧
      (nxvFindGap l size true = 0 ↔ ∀ b, ¬Gap l b size) ∧
      (nxvFindGap l size true ≠ 0 → IsGreatest {b | Gap l b size} (nxvFindGap l size true)) := by
  have hle : size ≤ nxvHighest := Nat.le_trans hsize (Nat.sub_le _ _)
  obtain ⟨hup, hleast⟩ := h.findGap_spec hle false
  obtain ⟨hdown, hgreatest⟩ := h.findGap_spec hle true
  refine ⟨⟨?_, ?_⟩, ?_, ⟨?_, ?_⟩, ?_⟩
  · exact fun h0 b hb => (hleast b hb).1 h0
  · exact fun hno => by_contra fun hne => hno _ (hup hne)
  · exact fun hne => ⟨hup hne, fun b hb => (hleast b hb).2⟩
  · exact fun h0 b hb => (hgreatest b hb).1 h0
  · exact fun hno => by_contra fun hne => hno _ (hdown hne)
  · exact fun hne => ⟨hdown hne, fun b hb => (hgreatest b hb).2⟩

/-- Two regions that leave a gap between them, with ends off the granularity. -/
def gapRegions : List Region := [⟨0x10000, 0x1000, 1⟩, ⟨0x7FF00000, 0x3000, 1⟩]

theorem findGap_optimal_gapRegions :
    IsLeast {b | Gap gapRegions b 0x5000} 0x20000 ∧
      IsGreatest {b | Gap gapRegions b 0xE0000} 0x7FE20000 := by
  have hok : RegionsOk gapRegions := by
    refine RegionsOk.cons ⟨by decide, by decide, by decide, by decide, by decide⟩
      (RegionsOk.cons ⟨by decide, by decide, by decide, by decide, by decide⟩ RegionsOk.nil
        (by simp)) ?_
    intro x hx
    rw [List.mem_singleton.1 hx]
    unfold Before
    decide
  have hlow : nxvFindGap gapRegions 0x5000 false = 0x20000 := by decide
  have hhigh : nxvFindGap gapRegions 0xE0000 true = 0x7FE20000 := by decide
  have hup := (findGap_optimal hok 0x5000 (by decide)).2.1 (by rw [hlow]; decide)
  have hdown := (findGap_optimal hok 0xE0000 (by decide)).2.2.2 (by rw [hhigh]; decide)
  exact ⟨hup, hdown⟩

end Roswell.Ports.TitleVm
