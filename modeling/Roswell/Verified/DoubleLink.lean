import Mathlib.Data.List.Nodup

/-!
# Doubly linked lists threaded through tables

A list of nonzero indices is threaded through two tables: `next` gives the
following index, `prev` the preceding one, and `0` terminates both ends.  The
tables are arbitrary functions, so a representation that packs both links in
one word uses this file through its two decoding functions.

The lists themselves are ghosts: `Threaded prev next head l` says that walking
`next` from `head` visits exactly `l`.  The rules needed to verify an intrusive
list are

* `Threaded.congr`: writes outside the members are frames;
* `Threaded.push`: linking a fresh index before the head;
* `Threaded.unlink`: joining the two neighbours of a member, wherever it is;
* `Threaded.walk_eq`: a bounded walk from the head is `List.find?`.
-/

namespace Roswell.Verified.DoubleLink

/-- The first member, or the terminator. -/
def first (l : List Nat) : Nat := l.headD 0

@[simp] theorem first_nil : first [] = 0 := rfl

@[simp] theorem first_cons (x : Nat) (l : List Nat) : first (x :: l) = x := rfl

/-- The members of `l` are linked in both directions; `p` precedes the first
one and the terminator follows the last one. -/
def Chain (prev next : Nat → Nat) : Nat → List Nat → Prop
  | _, [] => True
  | p, x :: l => prev x = p ∧ next x = first l ∧ Chain prev next x l

/-- A well-formed list with its head. -/
structure Threaded (prev next : Nat → Nat) (head : Nat) (l : List Nat) : Prop where
  head_eq : head = first l
  chain : Chain prev next 0 l
  nodup : l.Nodup
  ne_zero : ∀ x ∈ l, x ≠ 0

section Chain

variable {prev next prev' next' : Nat → Nat}

variable {l : List Nat} {p x : Nat}

theorem Chain.congr {p : Nat} (h : Chain prev next p l)
    (hp : ∀ y ∈ l, prev' y = prev y) (hn : ∀ y ∈ l, next' y = next y) :
    Chain prev' next' p l := by
  induction l generalizing p with
  | nil => trivial
  | cons x l ih =>
    obtain ⟨hprev, hnext, hrest⟩ := h
    refine ⟨?_, ?_, ih hrest ?_ ?_⟩
    · rw [hp x (by simp), hprev]
    · rw [hn x (by simp), hnext]
    · intro y hy; exact hp y (by simp [hy])
    · intro y hy; exact hn y (by simp [hy])

theorem first_eq_zero_or_mem (l : List Nat) : first l = 0 ∨ first l ∈ l := by
  cases l <;> simp

/-- A forward link leaves the list only through the terminator. -/
theorem Chain.next_mem (h : Chain prev next p l)
    (hx : x ∈ l) : next x = 0 ∨ next x ∈ l := by
  induction l generalizing p with
  | nil => simp at hx
  | cons a t ih =>
    obtain ⟨-, hnext, hrest⟩ := h
    rcases List.mem_cons.1 hx with rfl | hxt
    · rw [hnext]
      rcases first_eq_zero_or_mem t with h0 | hm
      · exact Or.inl h0
      · exact Or.inr (by simp [hm])
    · rcases ih hrest hxt with h0 | hm
      · exact Or.inl h0
      · exact Or.inr (by simp [hm])

/-- A backward link leaves the list only through the predecessor of the first
member. -/
theorem Chain.prev_mem (h : Chain prev next p l)
    (hx : x ∈ l) : prev x = p ∨ prev x ∈ l := by
  induction l generalizing p with
  | nil => simp at hx
  | cons a t ih =>
    obtain ⟨hprev, -, hrest⟩ := h
    rcases List.mem_cons.1 hx with rfl | hxt
    · exact Or.inl hprev
    · rcases ih hrest hxt with ha | hm
      · exact Or.inr (by simp [ha])
      · exact Or.inr (by simp [hm])

/-- The links of a chain determine each other: a member whose predecessor link
is not `p` is the successor of that predecessor. -/
theorem Chain.prev_eq_iff (h : Chain prev next p l)
    (hp : p ∉ l) (hx : x ∈ l) : prev x = p ↔ x = first l := by
  cases l with
  | nil => simp at hx
  | cons a t =>
    obtain ⟨hprev, -, hrest⟩ := h
    constructor
    · intro hxp
      rcases List.mem_cons.1 hx with rfl | hxt
      · rfl
      · rcases hrest.prev_mem hxt with ha | hm
        · exact absurd (by simp [← ha, hxp]) hp
        · exact absurd (by simp [← hxp, hm]) hp
    · rintro rfl
      exact hprev

/-- Joining the neighbours of a member removes it from the chain. -/
theorem Chain.erase (h : Chain prev next p l)
    (hnd : l.Nodup) (h0 : ∀ y ∈ l, y ≠ 0) (hp : p ∉ l) (hx : x ∈ l)
    (hn : ∀ y ∈ l, y ≠ x → next' y = if y = prev x then next x else next y)
    (hb : ∀ y ∈ l, y ≠ x → prev' y = if y = next x then prev x else prev y) :
    Chain prev' next' p (l.erase x) := by
  induction l generalizing p with
  | nil => simp at hx
  | cons a t ih =>
    obtain ⟨hprev, hnext, hrest⟩ := h
    obtain ⟨hat, hndt⟩ := List.nodup_cons.1 hnd
    have hpa : p ≠ a := fun e => hp (by simp [e])
    have hpt : p ∉ t := fun e => hp (by simp [e])
    by_cases hax : a = x
    · -- The member is first: its successor inherits `p` as predecessor.
      subst hax
      rw [List.erase_cons_head]
      cases t with
      | nil => trivial
      | cons b u =>
        obtain ⟨-, hbnext, hbrest⟩ := hrest
        obtain ⟨hbu, -⟩ := List.nodup_cons.1 hndt
        have hba : b ≠ a := fun e => hat (by simp [e])
        have hnb : next a = b := hnext
        refine ⟨?_, ?_, hbrest.congr ?_ ?_⟩
        · rw [hb b (by simp) hba, hnb, if_pos rfl, hprev]
        · rw [hn b (by simp) hba, hprev,
            if_neg (fun e => hpt (by simp [← e])), hbnext]
        · intro y hy
          have hya : y ≠ a := fun e => hat (by simp [← e, hy])
          have hyb : y ≠ b := fun e => hbu (e ▸ hy)
          rw [hb y (by simp [hy]) hya, hnb, if_neg hyb]
        · intro y hy
          have hya : y ≠ a := fun e => hat (by simp [← e, hy])
          rw [hn y (by simp [hy]) hya, hprev,
            if_neg (fun e => hpt (by simp [← e, hy]))]
    · have hxt : x ∈ t := (List.mem_cons.1 hx).resolve_left (fun e => hax e.symm)
      rw [List.erase_cons_tail (by simpa using hax)]
      have hanx : a ≠ next x := by
        rcases hrest.next_mem hxt with e | hm
        · rw [e]; exact h0 a (by simp)
        · intro e; exact hat (e ▸ hm)
      refine ⟨?_, ?_, ih hrest hndt (fun y hy => h0 y (by simp [hy])) hat hxt ?_ ?_⟩
      · rw [hb a (by simp) hax, if_neg hanx, hprev]
      · rw [hn a (by simp) hax]
        cases t with
        | nil => simp at hxt
        | cons b u =>
          obtain ⟨hbprev, hbnext, hbrest⟩ := hrest
          by_cases hbx : b = x
          · subst hbx
            rw [if_pos hbprev.symm, List.erase_cons_head, hbnext]
          · have hxu : x ∈ u := (List.mem_cons.1 hxt).resolve_left (fun e => hbx e.symm)
            have hne : a ≠ prev x := by
              rcases hbrest.prev_mem hxu with e | hm
              · rw [e]; exact fun e' => hat (by simp [e'])
              · exact fun e' => hat (by simp [e', hm])
            rw [if_neg hne, List.erase_cons_tail (by simpa using hbx), hnext]
            rfl
      · intro y hy hyx; exact hn y (by simp [hy]) hyx
      · intro y hy hyx; exact hb y (by simp [hy]) hyx

end Chain

section Threaded

variable {prev next prev' next' : Nat → Nat} {head head' x : Nat} {l : List Nat}

theorem Threaded.zero_notMem (h : Threaded prev next head l) : 0 ∉ l :=
  fun h0 => h.ne_zero 0 h0 rfl

theorem Threaded.nil (prev next : Nat → Nat) : Threaded prev next 0 [] :=
  { head_eq := rfl, chain := trivial, nodup := List.nodup_nil, ne_zero := by simp }

/-- Writes to the links of non-members are frames. -/
theorem Threaded.congr (h : Threaded prev next head l)
    (hp : ∀ y ∈ l, prev' y = prev y) (hn : ∀ y ∈ l, next' y = next y) :
    Threaded prev' next' head l :=
  { h with chain := h.chain.congr hp hn }

theorem Threaded.head_eq_zero_iff (h : Threaded prev next head l) :
    head = 0 ↔ l = [] := by
  cases l with
  | nil => simp [h.head_eq]
  | cons a t => simpa [h.head_eq] using h.ne_zero a (by simp)

theorem Threaded.head_mem (h : Threaded prev next head l) (h0 : head ≠ 0) :
    head ∈ l := by
  rcases first_eq_zero_or_mem l with e | hm
  · exact absurd (h.head_eq.trans e) h0
  · rwa [h.head_eq]

/-- Linking a fresh index before the head. -/
theorem Threaded.push (h : Threaded prev next head l) (hx : x ∉ l) (h0 : x ≠ 0)
    (hpx : prev' x = 0) (hnx : next' x = head)
    (hp : ∀ y ∈ l, prev' y = if y = head then x else prev y)
    (hn : ∀ y ∈ l, next' y = next y) :
    Threaded prev' next' x (x :: l) := by
  refine ⟨rfl, ⟨hpx, by rw [hnx, h.head_eq], ?_⟩, List.nodup_cons.2 ⟨hx, h.nodup⟩, ?_⟩
  · cases l with
    | nil => trivial
    | cons a t =>
      obtain ⟨-, hanext, hrest⟩ := h.chain
      obtain ⟨hat, -⟩ := List.nodup_cons.1 h.nodup
      have hhead : head = a := h.head_eq
      refine ⟨?_, ?_, hrest.congr ?_ ?_⟩
      · rw [hp a (by simp), if_pos hhead.symm]
      · rw [hn a (by simp), hanext]
      · intro y hy
        rw [hp y (by simp [hy]), if_neg]
        rw [hhead]
        exact fun e => hat (e ▸ hy)
      · intro y hy; exact hn y (by simp [hy])
  · intro y hy
    rcases List.mem_cons.1 hy with rfl | hyl
    · exact h0
    · exact h.ne_zero y hyl

/-- Joining the neighbours of a member, and moving the head when the member
was first. -/
theorem Threaded.unlink (h : Threaded prev next head l) (hx : x ∈ l)
    (hhead : head' = if prev x = 0 then next x else head)
    (hn : ∀ y ∈ l, y ≠ x → next' y = if y = prev x then next x else next y)
    (hb : ∀ y ∈ l, y ≠ x → prev' y = if y = next x then prev x else prev y) :
    Threaded prev' next' head' (l.erase x) := by
  refine ⟨?_, h.chain.erase h.nodup h.ne_zero h.zero_notMem hx hn hb,
    h.nodup.erase x, fun y hy => h.ne_zero y (List.mem_of_mem_erase hy)⟩
  cases l with
  | nil => simp at hx
  | cons a t =>
    have hiff := h.chain.prev_eq_iff h.zero_notMem hx
    obtain ⟨-, hanext, -⟩ := h.chain
    by_cases hax : a = x
    · subst hax
      rw [hhead, if_pos (hiff.2 rfl), List.erase_cons_head, hanext]
    · have hne : ¬ prev x = 0 := fun e => hax (hiff.1 e).symm
      rw [hhead, if_neg hne, h.head_eq, List.erase_cons_tail (by simpa using hax)]
      rfl

/-- The neighbours of a member are members or terminators. -/
theorem Threaded.next_mem (h : Threaded prev next head l) (hx : x ∈ l) :
    next x = 0 ∨ next x ∈ l :=
  h.chain.next_mem hx

theorem Threaded.prev_mem (h : Threaded prev next head l) (hx : x ∈ l) :
    prev x = 0 ∨ prev x ∈ l :=
  h.chain.prev_mem hx

/-- The two neighbours of a member differ unless both are terminators. -/
theorem Chain.prev_ne_next {p x : Nat} {l : List Nat} (h : Chain prev next p l)
    (hnd : l.Nodup) (hp : p ∉ l) (hx : x ∈ l) (h0 : next x ≠ 0) :
    prev x ≠ next x := by
  induction l generalizing p with
  | nil => simp at hx
  | cons a t ih =>
    obtain ⟨hprev, hnext, hrest⟩ := h
    obtain ⟨hat, hndt⟩ := List.nodup_cons.1 hnd
    rcases List.mem_cons.1 hx with rfl | hxt
    · rcases first_eq_zero_or_mem t with e | hm
      · exact absurd (hnext.trans e) h0
      · rw [hprev, hnext]
        exact fun e => hp (by simp [e, hm])
    · exact ih hrest hndt hat hxt

theorem Threaded.prev_ne_next (h : Threaded prev next head l) (hx : x ∈ l)
    (h0 : next x ≠ 0) : prev x ≠ next x :=
  h.chain.prev_ne_next h.nodup h.zero_notMem hx h0

end Threaded

/-! ## Walking a list -/

/-- Follow `next` from `x` until `p` accepts an index, for at most `fuel`
indices; `0` when none is accepted. -/
def walk (next : Nat → Nat) (p : Nat → Bool) : Nat → Nat → Nat
  | 0, _ => 0
  | fuel + 1, x => if x = 0 then 0 else if p x then x else walk next p fuel (next x)

theorem Chain.walk_eq {prev next : Nat → Nat} {q : Nat} {l : List Nat}
    (h : Chain prev next q l) (h0 : ∀ x ∈ l, x ≠ 0) (p : Nat → Bool)
    {fuel : Nat} (hf : l.length < fuel) :
    walk next p fuel (first l) = (l.find? p).getD 0 := by
  induction l generalizing q fuel with
  | nil =>
    cases fuel with
    | zero => simp at hf
    | succ n => simp [walk]
  | cons a t ih =>
    cases fuel with
    | zero => simp at hf
    | succ n =>
      obtain ⟨-, hnext, hrest⟩ := h
      have ha : a ≠ 0 := h0 a (by simp)
      have ht : t.length < n := by simpa using hf
      rw [first_cons, walk, if_neg ha]
      cases hpa : p a with
      | true => simp [hpa]
      | false =>
        rw [if_neg (by simp), hnext,
          ih hrest (fun x hx => h0 x (by simp [hx])) ht]
        simp [hpa]

/-- Walking a well-formed list finds its first accepted member. -/
theorem Threaded.walk_eq {prev next : Nat → Nat} {head : Nat} {l : List Nat}
    (h : Threaded prev next head l) (p : Nat → Bool) {fuel : Nat}
    (hf : l.length < fuel) :
    walk next p fuel head = (l.find? p).getD 0 := by
  rw [h.head_eq]
  exact h.chain.walk_eq h.ne_zero p hf

end Roswell.Verified.DoubleLink
