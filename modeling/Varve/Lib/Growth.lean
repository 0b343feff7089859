import Mathlib.Algebra.Order.Group.Nat
import Mathlib.Tactic.Ring

/-!
# Buffers that grow by doubling

A buffer takes pieces one after the other.
-/

namespace Growth

/-- The capacity after room for so many bytes was asked for. -/
def grow (capacity needed : Nat) : Nat :=
  if needed ≤ capacity then capacity else max (max (2 * capacity) needed) 8

def held (capacity needed : Nat) : Nat :=
  if needed ≤ capacity then capacity else capacity + grow capacity needed

/-- The most that is held while pieces of these lengths are taken. -/
def peak : Nat → Nat → List Nat → Nat
  | capacity, _, [] => capacity
  | capacity, length, n :: pieces =>
    max (held capacity (length + n)) (peak (grow capacity (length + n)) (length + n) pieces)

theorem held_le (h4 : 4 ≤ capacity) (hn : needed ≤ final) :
    held capacity needed ≤ max capacity (3 * final) ∧
      grow capacity needed ≤ max capacity (3 * final) ∧ 4 ≤ grow capacity needed := by
  unfold held grow
  split
  · exact ⟨le_max_left _ _, le_max_left _ _, h4⟩
  · rename_i hfull
    omega

theorem peak_le (h4 : 4 ≤ capacity) (hf : length + pieces.sum ≤ final) :
    peak capacity length pieces ≤ max capacity (3 * final) := by
  induction pieces generalizing capacity length with
  | nil => exact le_max_left _ _
  | cons n pieces ih =>
    rw [List.sum_cons] at hf
    obtain ⟨hheld, hgrow, h4'⟩ := held_le h4 (by omega : length + n ≤ final)
    have hrest := ih h4' (by omega : length + n + pieces.sum ≤ final)
    rw [peak]
    omega

end Growth
