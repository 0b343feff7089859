import Mathlib.Algebra.Order.BigOperators.Group.List
import Mathlib.Tactic.Ring

/-!
# Stores of owned objects

A store keeps each object in a slot of its own.
-/

abbrev Slots (α : Type u) := List (Option α)

namespace Slots

variable {α : Type u} {s : Slots α} {f : α → Nat}

def get (s : Slots α) (i : Nat) : Option α := s[i]?.join

def add (s : Slots α) (a : α) : Slots α := s ++ [some a]

def put (s : Slots α) (i : Nat) (a : α) : Slots α := s.set i (some a)

def free (s : Slots α) (i : Nat) : Slots α := s.set i none

/-- The sum of a weight over the outstanding objects. -/
def total (f : α → Nat) (s : Slots α) : Nat := (s.map fun o => o.elim 0 f).sum

def Empty (s : Slots α) : Prop := ∀ i, s.get i = none

theorem get_eq_some : s.get i = some a ↔ s[i]? = some (some a) := by
  simp [get, Option.join_eq_some_iff]

theorem lt_length (h : s.get i = some a) : i < s.length :=
  (List.getElem?_eq_some_iff.mp (get_eq_some.mp h)).1

@[simp] theorem get_nil : Slots.get ([] : Slots α) i = none := rfl

theorem get_put (h : s.get i = some a) : (s.put i b).get j = if i = j then some b else s.get j := by
  have hlt := lt_length h
  by_cases hij : i = j
  · subst hij
    simp [get, put, hlt]
  · simp [get, put, hij]

theorem get_free (h : s.get i = some a) : (s.free i).get j = if i = j then none else s.get j := by
  have hlt := lt_length h
  by_cases hij : i = j
  · subst hij
    simp [get, free, hlt]
  · simp [get, free, hij]

theorem get_add : (s.add a).get j = if j = s.length then some a else s.get j := by
  by_cases hj : j = s.length
  · subst hj
    simp [get, add]
  · rcases Nat.lt_or_gt_of_ne hj with hlt | hgt
    · simp [get, add, hj, List.getElem?_append_left hlt]
    · have hnone : s[j]? = none := List.getElem?_eq_none (Nat.le_of_lt hgt)
      have hnone' : (s ++ [some a])[j]? = none := List.getElem?_eq_none (by simp; omega)
      simp [get, add, hj, hnone, hnone']

@[simp] theorem total_nil : total f ([] : Slots α) = 0 := rfl

@[simp] theorem total_add : total f (s.add a) = total f s + f a := by simp [total, add]

theorem total_set (h : s[i]? = some o) (p : Option α) :
    total f (s.set i p) + o.elim 0 f = total f s + p.elim 0 f := by
  induction s generalizing i with
  | nil => simp at h
  | cons q s ih =>
    cases i with
    | zero =>
      simp only [List.getElem?_cons_zero, Option.some.injEq] at h
      subst h
      simp only [total, List.set_cons_zero, List.map_cons, List.sum_cons]
      ring
    | succ i =>
      have hs := ih (by simpa using h)
      simp only [total, List.set_cons_succ, List.map_cons, List.sum_cons] at hs ⊢
      omega

theorem total_put (h : s.get i = some a) : total f (s.put i b) + f a = total f s + f b :=
  total_set (get_eq_some.mp h) (some b)

theorem total_free (h : s.get i = some a) : total f (s.free i) + f a = total f s :=
  total_set (get_eq_some.mp h) none

theorem le_total (h : s.get i = some a) : f a ≤ total f s := by
  have := total_free (f := f) h
  omega

theorem total_mono {g : α → Nat} (h : ∀ a, f a ≤ g a) : total f s ≤ total g s := by
  refine List.sum_le_sum fun o _ => ?_
  cases o with
  | none => exact Nat.le_refl 0
  | some a => exact h a

theorem total_eq_zero (h : ∀ i a, s.get i = some a → f a = 0) : total f s = 0 := by
  induction s with
  | nil => rfl
  | cons o s ih =>
    have hs : total f s = 0 := ih fun i a hi => h (i + 1) a hi
    have ho : o.elim 0 f = 0 := by
      cases o with
      | none => rfl
      | some a => exact h 0 a rfl
    simpa [total, ho] using hs

theorem Empty.total (h : Empty s) : total f s = 0 :=
  total_eq_zero fun i a hi => by simp [h i] at hi

end Slots
