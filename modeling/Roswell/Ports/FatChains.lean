import Mathlib.Data.List.Perm.Subperm
import Roswell.Ports.Fat

/-!
# Chains of clusters

`Ok` is the state of a volume with one chain for each file, no cluster left over
and the right count.  The routines that follow a chain, extend it and free it keep
it so; each lemma gives the chain of the file they are called for and leaves the
others alone.
-/

namespace Roswell.Ports.Fat

open Verified.Word Verified.Chains FatxGeometry Function

structure Ok (d : DeviceExt) (chains : Nat → List Nat) : Prop where
  table : Table d
  forest : Forest (link d) d.fatInfo.IsCluster chains

theorem Becomes.ok {d d' : DeviceExt} {f : Nat → Link Nat} {chains : Nat → List Nat}
    (h : Becomes d d' f) (hforest : Forest f d.fatInfo.IsCluster chains) : Ok d' chains := by
  refine ⟨h.table, ?_⟩
  rw [h.link, h.fatInfo]
  exact hforest

theorem Becomes.trans {d d' d'' : DeviceExt} {f g : Nat → Link Nat} (h : Becomes d d' f)
    (h' : Becomes d' d'' g) : Becomes d d'' g :=
  ⟨h'.table, h'.fatInfo.trans h.fatInfo, h'.link⟩

variable {d : DeviceExt} {chains : Nat → List Nat} {i c k : Nat} {l r : List Nat}

/-- The cluster that heads a list, or the value that stands for its end. -/
def headOf : List Nat → Nat
  | [] => endOfChain
  | b :: _ => b

theorem answer_after (r : List Nat) : answer (after r) = (.success, headOf r) := by
  cases r <;> rfl

theorem cluster_ne_end (h : Table d) (hc : d.fatInfo.IsCluster c) : c ≠ endOfChain := by
  have hlt := h.tabled.lt_endMark hc
  have hmark : endMark d.fatInfo.fatType < endOfChain := by
    cases d.fatInfo.fatType <;> decide
  omega

theorem drop_at (h : l[k]? = some c) : l.drop k = c :: l.drop (k + 1) := by
  obtain ⟨hk, hc⟩ := List.getElem?_eq_some_iff.1 h
  rw [← hc, List.getElem_cons_drop]

/-- A place of a list splits it. -/
theorem split_at (h : l[k]? = some c) : l = l.take k ++ c :: l.drop (k + 1) := by
  rw [← drop_at h, List.take_append_drop]

theorem exists_at (h : k < l.length) : ∃ b, l[k]? = some b := ⟨_, List.getElem?_eq_getElem h⟩

def freeClusterCount (d : DeviceExt) : Nat := freeNodes (link d) (clusters d.fatInfo)

theorem findAndMark_isSome (h : Table d) (hfree : 0 < freeClusterCount d) :
    ∃ d' b, d.findAndMarkAvailableCluster = some (d', b) := by
  obtain ⟨b, hmem, hb⟩ := List.countP_pos_iff.1 hfree
  have hcluster := mem_clusters.1 hmem
  have hread := (read_free_iff h.tabled hcluster).2 (of_decide_eq_true hb)
  obtain ⟨hlo, hhi⟩ := h.hint
  have hscan : ∀ start count, start ≤ b → b < start + count →
      (scanAvailable (mask d.fatInfo.fatType) d start count).isSome := by
    intro start count hge hlt
    unfold scanAvailable
    rw [List.find?_isSome]
    exact ⟨b, List.mem_range'_1.2 ⟨hge, hlt⟩, decide_eq_true hread⟩
  have hfound : ((scanAvailable (mask d.fatInfo.fatType) d d.lastAvailableCluster
      (d.fatInfo.numberOfClusters + 2 - d.lastAvailableCluster)).or
      (scanAvailable (mask d.fatInfo.fatType) d 2 (d.lastAvailableCluster - 2))).isSome := by
    rw [Option.isSome_or, Bool.or_eq_true]
    obtain ⟨htwo, hlast⟩ := hcluster
    by_cases hside : d.lastAvailableCluster ≤ b
    · exact Or.inl (hscan _ _ hside (by omega))
    · exact Or.inr (hscan _ _ htwo (by omega))
  have hentry : d.findAndMarkAvailableCluster =
      entryFindAndMarkAvailableCluster (mask d.fatInfo.fatType) d := by
    unfold DeviceExt.findAndMarkAvailableCluster
    cases d.fatInfo.fatType <;> rfl
  rw [hentry]
  unfold entryFindAndMarkAvailableCluster
  obtain ⟨a, ha⟩ := Option.isSome_iff_exists.1 hfound
  exact ⟨_, a, by dsimp only; rw [ha]; rfl⟩

/-- A free cluster is marked, and there is one less. -/
theorem mark_spec (h : Table d) :
    freeClusterCount d = 0 ∧ d.findAndMarkAvailableCluster = none ∨
      ∃ d' b, d.findAndMarkAvailableCluster = some (d', b) ∧ d.fatInfo.IsCluster b ∧
        link d b = .free ∧ Becomes d d' (update (link d) b .last) ∧
        freeClusterCount d' + 1 = freeClusterCount d := by
  by_cases hfree : freeClusterCount d = 0
  · refine Or.inl ⟨hfree, ?_⟩
    cases hfind : d.findAndMarkAvailableCluster with
    | none => rfl
    | some marked =>
      obtain ⟨hb, hlink, -⟩ := findAndMark_becomes (c := marked.2) h hfind
      exact absurd hfree (Nat.ne_of_gt
        (List.countP_pos_iff.2 ⟨_, mem_clusters.2 hb, decide_eq_true hlink⟩))
  · obtain ⟨d', b, hfind⟩ := findAndMark_isSome h (Nat.pos_of_ne_zero hfree)
    obtain ⟨hb, hlink, hbecomes⟩ := findAndMark_becomes h hfind
    refine Or.inr ⟨d', b, hfind, hb, hlink, hbecomes, ?_⟩
    have hcount :=
      freeNodes_update (f := link d) (clusters_nodup d.fatInfo) (mem_clusters.2 hb) .last
    rw [if_pos hlink, if_neg nofun, Nat.add_zero] at hcount
    unfold freeClusterCount
    rw [hbecomes.link, hbecomes.fatInfo]
    exact hcount

namespace Ok

theorem mem (_ : Ok d chains) (hi : chains i = l ++ c :: r) : c ∈ chains i := by
  rw [hi]
  simp

theorem isCluster (h : Ok d chains) (hi : chains i = l ++ c :: r) : d.fatInfo.IsCluster c :=
  h.forest.within (h.mem hi)

theorem getNextCluster (h : Ok d chains) (hi : chains i = l ++ c :: r) :
    getNextCluster d c = (.success, headOf r) := by
  have hchain := h.forest.chain i
  rw [hi] at hchain
  rw [getNextCluster_eq h.table.tabled (h.isCluster hi), hchain.link, answer_after]

/-! ## Extending -/

/-- A cluster for a file that has none. -/
theorem startChain (h : Ok d chains) (hi : chains i = []) :
    freeClusterCount d = 0 ∧ getNextClusterExtend d 0 = (d, .diskFull, 0) ∨
      ∃ d' b, getNextClusterExtend d 0 = (d', .success, b) ∧ d'.fatInfo = d.fatInfo ∧
        Ok d' (update chains i [b]) ∧ freeClusterCount d' + 1 = freeClusterCount d := by
  unfold getNextClusterExtend
  rw [if_pos rfl]
  rcases mark_spec h.table with ⟨hnone, hfind⟩ | ⟨d', b, hfind, hb, hfree, hbecomes, hcount⟩
  · rw [hfind]
    exact Or.inl ⟨hnone, rfl⟩
  · rw [hfind]
    exact Or.inr ⟨d', b, rfl, hbecomes.fatInfo, hbecomes.ok (h.forest.start hi hb hfree), hcount⟩

/-- One step along a chain, which gets a further cluster at its end. -/
theorem extendChain (h : Ok d chains) (hk : (chains i)[k]? = some c) :
    (chains i).length + freeClusterCount d ≤ k + 1 ∧
        getNextClusterExtend d c = (d, .diskFull, endOfChain) ∨
      ∃ d' b more, getNextClusterExtend d c = (d', .success, b) ∧ d'.fatInfo = d.fatInfo ∧
        Ok d' (update chains i (chains i ++ more)) ∧ (chains i ++ more)[k + 1]? = some b ∧
        (chains i ++ more).length + freeClusterCount d' =
          (chains i).length + freeClusterCount d := by
  have hlen := (List.getElem?_eq_some_iff.1 hk).1
  have hc := h.isCluster (split_at hk)
  have hpos := hc.1
  have hnext := h.getNextCluster (split_at hk)
  unfold Fat.getNextCluster at hnext
  rw [if_neg (by omega)] at hnext
  unfold getNextClusterExtend
  rw [if_neg (by omega), hnext]
  dsimp only
  by_cases hmore : k + 1 < (chains i).length
  · obtain ⟨b, hb⟩ := exists_at hmore
    rw [drop_at hb, headOf, if_neg (cluster_ne_end h.table (h.isCluster (split_at hb)))]
    refine Or.inr ⟨d, b, [], rfl, rfl, ?_⟩
    rw [List.append_nil, update_eq_self]
    exact ⟨h, hb, rfl⟩
  have hend : (chains i).drop (k + 1) = [] := List.drop_eq_nil_of_le (by omega)
  have hi : chains i = (chains i).take k ++ [c] := hend ▸ split_at hk
  rw [hend, headOf, if_pos rfl]
  rcases mark_spec h.table with ⟨hnone, hfind⟩ | ⟨d₁, b, hfind, hb, hfree, hmarked, hcount⟩
  · rw [hfind]
    exact Or.inl ⟨by omega, rfl⟩
  have hlinked := writeCluster_cluster hmarked.table (c := c) (b := b)
    (by rw [hmarked.fatInfo]; exact hc) (by rw [hmarked.fatInfo]; exact hb)
  have hused : link d₁ c ≠ .free := by
    rw [hmarked.link]
    by_cases hcb : c = b
    · rw [hcb, update_self]
      exact nofun
    · rw [update_of_ne hcb]
      exact (h.forest.chain i).not_free (h.mem hi)
  have hsame := freeNodes_update (f := link d₁) (clusters_nodup d₁.fatInfo)
    (mem_clusters.2 (by rw [hmarked.fatInfo]; exact hc)) (.next b)
  rw [if_neg hused, if_neg nofun] at hsame
  have hcount' : freeClusterCount (writeCluster d₁ c b) = freeClusterCount d₁ := by
    unfold freeClusterCount
    rw [hlinked.link, hlinked.fatInfo]
    exact hsame
  rw [hmarked.link] at hlinked
  have hboth := hmarked.trans hlinked
  have hgrown : (chains i).take k ++ [c, b] = chains i ++ [b] := by
    conv_rhs => rw [hi]
    rw [List.append_assoc]
    rfl
  rw [hfind]
  refine Or.inr ⟨_, b, [b], rfl, hboth.fatInfo, ?_, ?_, ?_⟩
  · rw [← hgrown]
    exact hboth.ok (h.forest.grow hi hb hfree)
  · rw [show k + 1 = (chains i).length by omega]
    exact List.getElem?_concat_length
  · rw [List.length_append, List.length_singleton]
    omega

/-- Following a chain and extending it where it ends.  What was added stays when the
disk is full. -/
theorem follow_extend (h : Ok d chains) (hk : (chains i)[k]? = some c) (n : Nat) :
    ∃ d' more, d'.fatInfo = d.fatInfo ∧ Ok d' (update chains i (chains i ++ more)) ∧
      ((∃ b, follow true n d c = (d', .success, some b) ∧ b ≠ endOfChain ∧
          k + n < (chains i ++ more).length) ∨
        follow true n d c = (d', .diskFull, none) ∧
          (chains i).length + freeClusterCount d ≤ k + n) := by
  induction n generalizing d chains k c with
  | zero =>
    refine ⟨d, [], rfl, ?_, Or.inl ⟨c, rfl, cluster_ne_end h.table (h.isCluster (split_at hk)), ?_⟩⟩
    · rw [List.append_nil, update_eq_self]
      exact h
    · rw [List.append_nil]
      exact (List.getElem?_eq_some_iff.1 hk).1
  | succ n ih =>
    rw [follow, if_pos rfl]
    rcases h.extendChain hk with ⟨hfull, hstep⟩ | ⟨d₁, b, more, hstep, hinfo, hok, hb, hroom⟩
    · rw [hstep]
      refine ⟨d, [], rfl, ?_, Or.inr ⟨rfl, by omega⟩⟩
      rw [List.append_nil, update_eq_self]
      exact h
    · rw [hstep]
      obtain ⟨d', more', hinfo', hok', hend⟩ := ih hok (by rw [update_self]; exact hb)
      rw [update_self, update_idem, List.append_assoc] at hok'
      rw [update_self, hroom, List.append_assoc, Nat.add_assoc, Nat.add_comm 1 n] at hend
      exact ⟨d', more ++ more', hinfo'.trans hinfo, hok', hend⟩

/-! ## Following -/

/-- Past the end mark there is no entry. -/
theorem not_holds_end (h : Table d) : ¬d.Holds endOfChain := by
  have hsmall := h.tabled.small
  unfold DeviceExt.Holds FatInfo.fatOffset endOfChain wmul
  cases d.fatInfo.fatType with
  | fatx16 | fatx32 =>
    simp only [FatType.width]
    omega

theorem getNextCluster_end (h : Table d) :
    Fat.getNextCluster d endOfChain = (.fileCorruptError, 0) := by
  have hread : d.read endOfChain = 0 := if_neg (not_holds_end h)
  unfold Fat.getNextCluster
  rw [if_neg (by decide), device_getNextCluster_entry]
  unfold entryGetNextCluster
  rw [hread]
  cases d.fatInfo.fatType <;> rfl

/-- Following a chain without extending it. -/
theorem follow_eq (h : Ok d chains) (hk : (chains i)[k]? = some c) (n : Nat) :
    follow false n d c =
      if k + n < (chains i).length then (d, .success, (chains i)[k + n]?)
      else if k + n = (chains i).length then (d, .success, some endOfChain)
      else (d, .fileCorruptError, none) := by
  have hlen := (List.getElem?_eq_some_iff.1 hk).1
  induction n generalizing k c with
  | zero =>
    rw [Nat.add_zero, if_pos hlen, hk]
    rfl
  | succ n ih =>
    rw [follow, if_neg Bool.false_ne_true, h.getNextCluster (split_at hk)]
    by_cases hmore : k + 1 < (chains i).length
    · obtain ⟨b, hb⟩ := exists_at hmore
      rw [drop_at hb, show k + (n + 1) = k + 1 + n by omega]
      exact ih hb hmore
    · rw [List.drop_eq_nil_of_le (by omega), if_neg (by omega)]
      show follow false n d endOfChain = _
      cases n with
      | zero =>
        rw [if_pos (by omega)]
        rfl
      | succ n =>
        rw [if_neg (by omega), follow, if_neg Bool.false_ne_true, getNextCluster_end h.table]

theorem follow_at (h : Ok d chains) {n b : Nat} (hk : (chains i)[k]? = some c)
    (hb : (chains i)[k + n]? = some b) : follow false n d c = (d, .success, some b) := by
  rw [h.follow_eq hk n, if_pos (List.getElem?_eq_some_iff.1 hb).1, hb]

end Ok

/-! ## Freeing -/

theorem chain_length_lt (h : Tabled d.fatInfo) (hnodup : l.Nodup)
    (hl : ∀ c ∈ l, d.fatInfo.IsCluster c) : l.length < 2 ^ 32 := by
  have hsub : l ⊆ clusters d.fatInfo := fun c hc => mem_clusters.2 (hl c hc)
  have hle := (hnodup.subperm hsub).length_le
  have hnum := h.numbered
  have hmark : endMark d.fatInfo.fatType < 2 ^ 28 := by
    cases d.fatInfo.fatType <;> decide
  unfold clusters at hle
  rw [List.length_range'] at hle
  omega

/-- A chain that is about to be freed, from its first cluster on. -/
structure Doomed (d : DeviceExt) (l : List Nat) : Prop where
  chain : IsChain (link d) l
  within : ∀ c ∈ l, d.fatInfo.IsCluster c

theorem Doomed.next (h : Doomed d (c :: l)) (htable : Table d) :
    getNextCluster d c = (.success, headOf l) := by
  rw [getNextCluster_eq htable.tabled (h.within c List.mem_cons_self), h.chain.1, answer_after]

/-- Its first cluster freed. -/
theorem Doomed.step (h : Doomed d (c :: l)) (htable : Table d) :
    Becomes d (writeCluster d c 0) (update (link d) c .free) ∧
      Doomed (writeCluster d c 0) l ∧
      freeAll (update (link d) c .free) l = freeAll (link d) (c :: l) := by
  have hbecomes := writeCluster_zero htable (h.within c List.mem_cons_self)
  have hfresh := (List.nodup_cons.1 h.chain.nodup).1
  refine ⟨hbecomes, ⟨?_, ?_⟩, ?_⟩
  · rw [hbecomes.link]
    refine h.chain.2.congr fun b hb => update_of_ne ?_ _ _
    rintro rfl
    exact hfresh hb
  · intro b hb
    rw [hbecomes.fatInfo]
    exact h.within b (List.mem_cons_of_mem c hb)
  · funext b
    by_cases hb : b = c
    · subst hb
      simp [freeAll]
    · simp [freeAll, hb]

/-- A loop that frees the cluster it is at and goes on with the next one frees the chain. -/
theorem Doomed.loop {f : Nat → DeviceExt → Nat → Option DeviceExt}
    (hend : ∀ n d, f (n + 1) d endOfChain = some d)
    (hstep : ∀ n d c l, Table d → Doomed d (c :: l) →
      f (n + 1) d c = f n (writeCluster d c 0) (headOf l))
    {n : Nat} (htable : Table d) (h : Doomed d l) (hn : l.length < n) :
    ∃ d', f n d (headOf l) = some d' ∧ Becomes d d' (freeAll (link d) l) := by
  induction n generalizing d l with
  | zero => exact absurd hn (Nat.not_lt_zero _)
  | succ n ih =>
    cases l with
    | nil =>
      refine ⟨d, hend n d, htable, rfl, ?_⟩
      funext b
      simp [freeAll]
    | cons c l =>
      obtain ⟨hbecomes, hrest, hfree⟩ := h.step htable
      obtain ⟨d', hloop, hall⟩ := ih hbecomes.table hrest (by simpa using hn)
      rw [hbecomes.link, hfree] at hall
      exact ⟨d', (hstep n d c l htable h).trans hloop, hbecomes.trans hall⟩

theorem freeClusters_chain {first n : Nat} (hfirst : first ≠ 1) (htable : Table d)
    (h : Doomed d l) (hn : l.length < n) :
    ∃ d', freeClusters first n d .success (headOf l) = some d' ∧
      Becomes d d' (freeAll (link d) l) := by
  refine Doomed.loop (f := fun n d => freeClusters first n d .success)
    (fun n d => if_neg fun hgo => hgo.2.1 rfl) ?_ htable h hn
  intro n d c l htable h
  have hc := h.within c List.mem_cons_self
  rw [freeClusters, if_pos ⟨rfl, cluster_ne_end htable hc, hc.1⟩, nextCluster, if_neg hfirst,
    if_neg Bool.false_ne_true, h.next htable]

theorem deleteClusters_chain {n : Nat} (htable : Table d) (h : Doomed d l) (hn : l.length < n) :
    ∃ d', deleteClusters n d (headOf l) = some d' ∧ Becomes d d' (freeAll (link d) l) := by
  refine Doomed.loop (f := deleteClusters) (fun n d => if_neg fun hgo => hgo.2 rfl) ?_ htable h hn
  intro n d c l htable h
  have hc := h.within c List.mem_cons_self
  rw [deleteClusters, if_pos ⟨Nat.ne_of_gt (Nat.lt_trans Nat.one_pos hc.1),
    cluster_ne_end htable hc⟩, h.next htable]

end Roswell.Ports.Fat
