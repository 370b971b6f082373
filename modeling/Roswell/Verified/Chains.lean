import Mathlib.Data.List.Nodup

/-!
# Chains threaded through a table of links

A table gives each node one link: it is free, the last of a chain, or followed by
another node.  The table is an arbitrary function, so an encoding of links in
words uses this file through its decoding.

A chain is the list of its nodes.  As a node has one link, the list is determined
by its first node and repeats none, so that a table whose nodes lie in such lists
has no cycles.  `Forest` is a family of chains that share no node and leave no
node out; its rules are the four changes that keep it one: a first node, a
further node, a cut and a whole chain freed.
-/

namespace Roswell.Verified.Chains

open Function

universe u v

inductive Link (α : Type u) where
  | free
  | last
  | next (a : α)
  deriving DecidableEq, Repr

variable {α : Type u} {f g : α → Link α}

/-- The link of a node that a list follows. -/
def after : List α → Link α
  | [] => .last
  | b :: _ => .next b

/-- The nodes of the list are linked one to the next. -/
def IsChain (f : α → Link α) : List α → Prop
  | [] => True
  | a :: l => f a = after l ∧ IsChain f l

namespace IsChain

theorem congr {l : List α} (h : IsChain f l) (hg : ∀ a ∈ l, g a = f a) : IsChain g l := by
  induction l with
  | nil => trivial
  | cons a l ih =>
    obtain ⟨hlink, hrest⟩ := h
    refine ⟨(hg a List.mem_cons_self).trans hlink, ih hrest ?_⟩
    intro b hb
    exact hg b (List.mem_cons_of_mem a hb)

variable {l r : List α} {a : α}

theorem suffix (h : IsChain f (l ++ r)) : IsChain f r := by
  induction l with
  | nil => exact h
  | cons a l ih => exact ih h.2

theorem link (h : IsChain f (l ++ a :: r)) : f a = after r :=
  (suffix h).1

theorem not_free {l : List α} (h : IsChain f l) (ha : a ∈ l) : f a ≠ .free := by
  obtain ⟨l, r, rfl⟩ := List.append_of_mem ha
  rw [h.link]
  cases r with
  | nil => exact nofun
  | cons b r => exact nofun

/-- A chain is determined by its first node. -/
theorem unique (hl : IsChain f (a :: l)) (hr : IsChain f (a :: r)) :
    l = r := by
  induction l generalizing a r with
  | nil =>
    have hlink := hl.1.symm.trans hr.1
    cases r with
    | nil => rfl
    | cons b r => exact absurd hlink nofun
  | cons b l ih =>
    have hlink := hl.1.symm.trans hr.1
    cases r with
    | nil => exact absurd hlink nofun
    | cons c r =>
      obtain rfl : b = c := Link.next.inj hlink
      rw [ih hl.2 hr.2]

/-- A chain comes back to none of its nodes. -/
theorem nodup {l : List α} (h : IsChain f l) : l.Nodup := by
  induction l with
  | nil => exact List.nodup_nil
  | cons a l ih =>
    refine List.nodup_cons.2 ⟨?_, ih h.2⟩
    intro ha
    obtain ⟨r, s, rfl⟩ := List.append_of_mem ha
    have hsame := unique h (suffix (l := a :: r) h)
    have hlength := congrArg List.length hsame
    rw [List.length_append, List.length_cons] at hlength
    omega

variable [DecidableEq α]

/-- Cutting a chain behind one of its nodes. -/
theorem cut (h : IsChain f (l ++ a :: r)) :
    IsChain (update f a .last) (l ++ [a]) := by
  induction l with
  | nil => exact ⟨update_self a _ f, trivial⟩
  | cons b l ih =>
    have hne : b ≠ a := by
      rintro rfl
      exact (List.nodup_cons.1 h.nodup).1 (by simp)
    refine ⟨?_, ih h.2⟩
    show update f a .last b = after (l ++ [a])
    rw [update_of_ne hne, h.1]
    cases l with
    | nil => rfl
    | cons c l => rfl

/-- Linking a node that is in no chain behind the last one. -/
theorem append {l : List α} {a c : α} (h : IsChain f (l ++ [a])) (hc : c ∉ l ++ [a]) :
    IsChain (update (update f c .last) a (.next c)) (l ++ [a, c]) := by
  have hac : c ≠ a := by
    rintro rfl
    exact hc (by simp)
  induction l with
  | nil =>
    refine ⟨update_self a _ _, ?_, trivial⟩
    show update (update f c .last) a (.next c) c = .last
    rw [update_of_ne hac, update_self]
  | cons b l ih =>
    have hba : b ≠ a := by
      rintro rfl
      exact (List.nodup_cons.1 h.nodup).1 (by simp)
    have hbc : b ≠ c := by
      rintro rfl
      exact hc (by simp)
    refine ⟨?_, ih h.2 fun hmem => hc (List.mem_cons_of_mem b hmem)⟩
    show update (update f c .last) a (.next c) b = after (l ++ [a, c])
    rw [update_of_ne hba, update_of_ne hbc, h.1]
    cases l with
    | nil => rfl
    | cons d l => rfl

end IsChain

/-- The table with the nodes of a list freed. -/
def freeAll [DecidableEq α] (f : α → Link α) (l : List α) (a : α) : Link α :=
  if a ∈ l then .free else f a

/-! ## Counting free nodes -/

/-- The free nodes of a list. -/
def freeNodes [DecidableEq α] (f : α → Link α) (l : List α) : Nat :=
  l.countP fun a => f a = .free

section Count

variable [DecidableEq α] {a : α} {l : List α} {x : Link α}

theorem freeNodes_le (f : α → Link α) (l : List α) : freeNodes f l ≤ l.length :=
  List.countP_le_length

theorem freeNodes_update_of_not_mem (ha : a ∉ l) :
    freeNodes (update f a x) l = freeNodes f l := by
  refine List.countP_congr ?_
  intro b hb
  rw [update_of_ne]
  rintro rfl
  exact ha hb

/-- One link rewritten: the count moves with that node alone. -/
theorem freeNodes_update (hl : l.Nodup) (ha : a ∈ l) (x : Link α) :
    freeNodes (update f a x) l + (if f a = .free then 1 else 0) =
      freeNodes f l + (if x = .free then 1 else 0) := by
  induction l with
  | nil => exact absurd ha List.not_mem_nil
  | cons b l ih =>
    obtain ⟨hb, hrest⟩ := List.nodup_cons.1 hl
    have hcons : ∀ g : α → Link α,
        freeNodes g (b :: l) = freeNodes g l + (if g b = .free then 1 else 0) := by
      intro g
      unfold freeNodes
      rw [List.countP_cons]
      simp only [decide_eq_true_eq]
    rw [hcons, hcons]
    rcases List.mem_cons.1 ha with rfl | hal
    · rw [freeNodes_update_of_not_mem hb, update_self]
      omega
    · have hne : b ≠ a := by
        rintro rfl
        exact hb hal
      have := ih hrest hal
      rw [update_of_ne hne]
      omega

end Count

/-! ## Families of chains -/

variable {ι : Type v}

/-- Chains that share no node, and hold every node of `P` that is not free. -/
structure Forest (f : α → Link α) (P : α → Prop) (chains : ι → List α) : Prop where
  chain : ∀ i, IsChain f (chains i)
  apart : ∀ {i j a}, a ∈ chains i → a ∈ chains j → i = j
  within : ∀ {i a}, a ∈ chains i → P a
  cover : ∀ {a}, P a → f a ≠ .free → ∃ i, a ∈ chains i

namespace Forest

variable {P : α → Prop} {chains : ι → List α} {i : ι} {a c : α}

theorem free_not_mem (h : Forest f P chains) (hc : f c = .free) (j : ι) : c ∉ chains j :=
  fun hmem => (h.chain j).not_free hmem hc

variable [DecidableEq ι]

/-- One chain is replaced by `l`; the table changes inside the old and the new
chain alone. -/
theorem replace (h : Forest f P chains) {l : List α} (hl : IsChain g l)
    (hframe : ∀ b, b ∉ chains i → b ∉ l → g b = f b)
    (hnew : ∀ b ∈ l, b ∈ chains i ∨ (P b ∧ f b = .free))
    (hgone : ∀ b ∈ chains i, b ∉ l → g b = .free) :
    Forest g P (update chains i l) := by
  have hother : ∀ {j b}, j ≠ i → b ∈ chains j → b ∉ chains i ∧ b ∉ l := by
    intro j b hj hb
    have hold : b ∉ chains i := fun hi => hj (h.apart hb hi)
    refine ⟨hold, ?_⟩
    intro hmem
    rcases hnew b hmem with hi | ⟨-, hfree⟩
    · exact hold hi
    · exact h.free_not_mem hfree j hb
  have hcases : ∀ {j b}, b ∈ update chains i l j →
      (j = i ∧ b ∈ l) ∨ (j ≠ i ∧ b ∈ chains j) := by
    intro j b hb
    by_cases hj : j = i
    · subst hj
      rw [update_self] at hb
      exact Or.inl ⟨rfl, hb⟩
    · rw [update_of_ne hj] at hb
      exact Or.inr ⟨hj, hb⟩
  refine ⟨?_, ?_, ?_, ?_⟩
  · intro j
    by_cases hj : j = i
    · subst hj
      rw [update_self]
      exact hl
    · rw [update_of_ne hj]
      refine (h.chain j).congr ?_
      intro b hb
      exact hframe b (hother hj hb).1 (hother hj hb).2
  · intro j k b hb hb'
    rcases hcases hb with ⟨rfl, hbl⟩ | ⟨hj, hbj⟩
    · rcases hcases hb' with ⟨rfl, -⟩ | ⟨hk, hbk⟩
      · rfl
      · exact absurd hbl (hother hk hbk).2
    · rcases hcases hb' with ⟨rfl, hbl⟩ | ⟨-, hbk⟩
      · exact absurd hbl (hother hj hbj).2
      · exact h.apart hbj hbk
  · intro j b hb
    rcases hcases hb with ⟨rfl, hbl⟩ | ⟨-, hbj⟩
    · rcases hnew b hbl with hi | ⟨hP, -⟩
      · exact h.within hi
      · exact hP
    · exact h.within hbj
  · intro b hP hb
    by_cases hbl : b ∈ l
    · exact ⟨i, by rw [update_self]; exact hbl⟩
    have hold : b ∉ chains i := fun hi => hb (hgone b hi hbl)
    rw [hframe b hold hbl] at hb
    obtain ⟨j, hj⟩ := h.cover hP hb
    refine ⟨j, ?_⟩
    rw [update_of_ne]
    · exact hj
    · rintro rfl
      exact hold hj

variable [DecidableEq α]

/-- The first node of an empty chain. -/
theorem start (h : Forest f P chains) (hi : chains i = []) (hP : P c) (hc : f c = .free) :
    Forest (update f c .last) P (update chains i [c]) := by
  refine h.replace ⟨update_self c _ f, trivial⟩ ?_ ?_ ?_
  · intro b _ hb
    exact update_of_ne (fun heq => hb (by simp [heq])) _ f
  · intro b hb
    obtain rfl := List.mem_singleton.1 hb
    exact Or.inr ⟨hP, hc⟩
  · intro b hb
    rw [hi] at hb
    exact absurd hb List.not_mem_nil

/-- A further node behind the last one. -/
theorem grow (h : Forest f P chains) {l : List α} (hi : chains i = l ++ [a]) (hP : P c)
    (hc : f c = .free) :
    Forest (update (update f c .last) a (.next c)) P
      (update chains i (l ++ [a, c])) := by
  have hchain := h.chain i
  rw [hi] at hchain
  have hfresh : c ∉ l ++ [a] := hi ▸ h.free_not_mem hc i
  refine h.replace (hchain.append hfresh) ?_ ?_ ?_
  · intro b _ hb
    rw [update_of_ne fun heq => hb (by simp [heq]),
      update_of_ne fun heq => hb (by simp [heq])]
  · intro b hb
    rw [hi]
    rcases List.mem_append.1 hb with hbl | hbr
    · exact Or.inl (List.mem_append_left _ hbl)
    · rcases List.mem_cons.1 hbr with rfl | hbc
      · exact Or.inl (by simp)
      · obtain rfl := List.mem_singleton.1 hbc
        exact Or.inr ⟨hP, hc⟩
  · intro b hb hbl
    rw [hi] at hb
    exact absurd (List.mem_append.2 ((List.mem_append.1 hb).imp_right fun hmem =>
      List.mem_cons.2 (Or.inl (List.mem_singleton.1 hmem)))) hbl

/-- A chain cut behind one of its nodes, with the rest freed. -/
theorem cut (h : Forest f P chains) {l r : List α} (hi : chains i = l ++ a :: r) :
    Forest (freeAll (update f a .last) r) P (update chains i (l ++ [a])) := by
  have hchain := h.chain i
  rw [hi] at hchain
  have hnodup := hchain.nodup
  have hkeep : ∀ b ∈ l ++ [a], b ∉ r := by
    intro b hb hbr
    rw [List.append_cons] at hnodup
    exact (List.disjoint_of_nodup_append hnodup) hb hbr
  refine h.replace ?_ ?_ ?_ ?_
  · refine hchain.cut.congr ?_
    intro b hb
    exact if_neg (hkeep b hb)
  · intro b hb hbl
    rw [hi] at hb
    unfold freeAll
    rw [if_neg fun hbr => hb (by simp [hbr]), update_of_ne fun heq => hbl (by simp [heq])]
  · intro b hb
    rw [hi, List.append_cons]
    exact Or.inl (List.mem_append_left r hb)
  · intro b hb hbl
    rw [hi, List.append_cons] at hb
    exact if_pos ((List.mem_append.1 hb).resolve_left hbl)

/-- A whole chain freed. -/
theorem clear (h : Forest f P chains) (i : ι) :
    Forest (freeAll f (chains i)) P (update chains i []) := by
  refine h.replace trivial ?_ ?_ ?_
  · intro b hb _
    exact if_neg hb
  · intro b hb
    exact absurd hb List.not_mem_nil
  · intro b hb _
    exact if_pos hb

end Forest

end Roswell.Verified.Chains
