import Varve.Lib.Except

/-!
# Runs of a state machine

A machine is a set of initial states and a labelled step relation.
-/

structure Machine (σ : Type u) (α : Type v) where
  init : σ → Prop
  step : σ → α → σ → Prop

namespace Machine

variable {σ : Type u} {α : Type v} {τ : Type w} {β : Type x} {M : Machine σ α}

inductive Reachable (M : Machine σ α) : σ → Prop where
  | init (h : M.init s) : Reachable M s
  | step (h : Reachable M s) (hs : M.step s a s') : Reachable M s'

/-- The machine whose runs are those of `M` that only take allowed steps. -/
def restrict (M : Machine σ α) (allowed : σ → α → Prop) : Machine σ α where
  init := M.init
  step s a s' := allowed s a ∧ M.step s a s'

theorem Reachable.invariant {I : σ → Prop} (hr : M.Reachable s) (h0 : ∀ s, M.init s → I s)
    (hs : ∀ s a s', I s → M.step s a s' → I s') : I s := by
  induction hr with
  | init h => exact h0 _ h
  | step _ h ih => exact hs _ _ _ ih h

theorem Reachable.of_restrict {allowed : σ → α → Prop} (hr : (M.restrict allowed).Reachable s) :
    M.Reachable s :=
  hr.invariant (fun _ h => .init h) fun _ _ _ ih h => .step ih h.2

/-- The machine of a step function: a failed step has no successor. -/
def ofStep (init : σ → Prop) (step : σ → α → Except ε σ) : Machine σ α where
  init := init
  step s a s' := step s a = .ok s'

theorem Reachable.foldlM {init : σ → Prop} {step : σ → α → Except ε σ} {as : List α}
    (h : (ofStep init step).Reachable s) (hs : as.foldlM step s = .ok s') :
    (ofStep init step).Reachable s' := by
  induction as generalizing s with
  | nil =>
    cases hs
    exact h
  | cons a as ih =>
    obtain ⟨t, ht, hs⟩ := Result.bind_ok.mp hs
    exact ih (.step h ht) hs

end Machine
