import Varve.Lib.Run

/-!
# Paths of a state machine

The steps between two states with their labels, for results that compare the state before a stretch
of a run with the state after it.
-/

namespace Machine

inductive Path {σ : Type u} {α : Type v} (M : Machine σ α) : σ → List α → σ → Prop where
  | nil : Path M s [] s
  | cons (h : M.step s a t) (hp : Path M t as r) : Path M s (a :: as) r

variable {σ : Type u} {α : Type v} {M : Machine σ α} {s t : σ} {as : List α}

theorem Path.reachable (hp : M.Path s as t) (hr : M.Reachable s) : M.Reachable t := by
  induction hp with
  | nil => exact hr
  | cons h _ ih => exact ih (hr.step h)

theorem Path.rel {R : σ → σ → Prop} (hp : M.Path s as t) (hr : M.Reachable s) (h0 : ∀ s, R s s)
    (ht : ∀ s t u, R s t → R t u → R s u)
    (hs : ∀ s a t, M.Reachable s → M.step s a t → R s t) : R s t := by
  induction hp with
  | nil => exact h0 _
  | cons h _ ih => exact ht _ _ _ (hs _ _ _ hr h) (ih (hr.step h))

/-- Steps of one kind are no more than a measure that each of them lowers and no other allowed
step raises. -/
theorem Path.countP_le {p allowed : α → Bool} {μ : σ → Nat} (hp : M.Path s as t)
    (hr : M.Reachable s) (ha : ∀ a ∈ as, allowed a = true)
    (hs : ∀ s a t, M.Reachable s → allowed a = true → M.step s a t →
      μ t + (if p a then 1 else 0) ≤ μ s) : μ t + as.countP p ≤ μ s := by
  induction hp with
  | nil => simp
  | cons h _ ih =>
    obtain ⟨hhead, htail⟩ := List.forall_mem_cons.mp ha
    have hstep := hs _ _ _ hr hhead h
    have hrest := ih (hr.step h) htail
    rw [List.countP_cons]
    omega

end Machine
