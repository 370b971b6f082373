import Mathlib.Logic.Function.Basic

/-!
# Runs of labelled transition systems

A system is an initial predicate and a labelled step relation.  `Reachable`
collects every state some finite run leads to, and `Reachable.invariant`
packages the induction: a property that holds initially and survives each step
holds in every reachable state.
-/

namespace Roswell.Verified.Runs

universe u v

variable {σ : Type u} {α : Type v}

/-- States reachable from `init` through any finite sequence of steps. -/
inductive Reachable (init : σ → Prop) (step : σ → α → σ → Prop) : σ → Prop
  | start {s : σ} : init s → Reachable init step s
  | next {s t : σ} (a : α) : Reachable init step s → step s a t →
      Reachable init step t

/-- The invariant rule.  The step obligation may use that the source state is
reachable. -/
theorem Reachable.invariant {init : σ → Prop} {step : σ → α → σ → Prop}
    {P : σ → Prop} (hinit : ∀ s, init s → P s)
    (hstep : ∀ s a t, P s → step s a t → P t) {s : σ}
    (h : Reachable init step s) : P s := by
  induction h with
  | start hs => exact hinit _ hs
  | next a _ hst ih => exact hstep _ a _ ih hst

/-- A run that goes on from a reachable state, with steps of the same system. -/
theorem Reachable.extend {init : σ → Prop} {step step' : σ → α → σ → Prop} {s t : σ}
    (hs : Reachable init step s) (hsub : ∀ u a v, step' u a v → step u a v)
    (h : Reachable (· = s) step' t) : Reachable init step t := by
  induction h with
  | start he => exact he ▸ hs
  | next a _ hst ih => exact .next a ih (hsub _ a _ hst)

/-- A run given by its labels, for a system whose steps are functions. -/
theorem Reachable.foldl {init : σ → Prop} {step : σ → α → σ → Prop} {apply : σ → α → σ}
    {s : σ} (hs : Reachable init step s) (labels : List α)
    (hstep : ∀ a ∈ labels, ∀ u, step u a (apply u a)) :
    Reachable init step (labels.foldl apply s) := by
  induction labels generalizing s with
  | nil => exact hs
  | cons a as ih =>
    refine ih (.next a hs (hstep a List.mem_cons_self s)) ?_
    intro b hb
    exact hstep b (List.mem_cons_of_mem a hb)

/-- Every label of a run finds what it asks for in the state it is applied to. -/
def Allowed (guard : σ → α → Prop) (apply : σ → α → σ) : σ → List α → Prop
  | _, [] => True
  | s, a :: as => guard s a ∧ Allowed guard apply (apply s a) as

instance Allowed.decidable {guard : σ → α → Prop} {apply : σ → α → σ}
    [∀ s a, Decidable (guard s a)] (s : σ) (labels : List α) :
    Decidable (Allowed guard apply s labels) :=
  match labels with
  | [] => inferInstanceAs (Decidable True)
  | a :: as => @instDecidableAnd _ _ _ (Allowed.decidable (apply s a) as)

/-- A run given by its labels, where a step has a condition on the state before it. -/
theorem Reachable.allowed {init : σ → Prop} {step : σ → α → σ → Prop} {apply : σ → α → σ}
    {guard : σ → α → Prop} {s : σ} (hs : Reachable init step s) (labels : List α)
    (hstep : ∀ u a, guard u a → step u a (apply u a)) (h : Allowed guard apply s labels) :
    Reachable init step (labels.foldl apply s) := by
  induction labels generalizing s with
  | nil => exact hs
  | cons a as ih => exact ih (.next a hs (hstep s a h.1)) h.2

/-- What holds of a value after one of them changed held before, or is about that one. -/
theorem of_update {α β : Type} [DecidableEq α] {f : α → β} {i j : α} {b : β} {P : β → Prop}
    (h : P (Function.update f i b j)) : j = i ∧ P b ∨ j ≠ i ∧ P (f j) := by
  by_cases hj : j = i
  · subst hj
    exact .inl ⟨rfl, by rwa [Function.update_self] at h⟩
  · exact .inr ⟨hj, by rwa [Function.update_of_ne hj] at h⟩

/-- A change of one value that keeps a feature of it. -/
theorem update_same {α β γ : Type} [DecidableEq α] {f : α → β} {i : α} {b : β} (g : β → γ)
    (h : g b = g (f i)) (j : α) : g (Function.update f i b j) = g (f j) := by
  by_cases hj : j = i
  · rw [hj, Function.update_self, h]
  · rw [Function.update_of_ne hj]

end Roswell.Verified.Runs
