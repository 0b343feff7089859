import Mathlib.Algebra.BigOperators.Group.List.Basic
import Mathlib.Tactic.Ring

/-!
# Greedy packing

Items are packed in order into groups with a separator between two items.
-/

namespace Packing

variable {α : Type u} (size : α → Nat) (capacity : Nat)

/-- The bytes of a group: its items and the separators between them. -/
def load (group : List α) : Nat := (group.map size).sum + (group.length - 1)

def pack : List α → List α → List (List α)
  | pending, [] => if pending = [] then [] else [pending]
  | pending, a :: items =>
    if pending ≠ [] ∧ capacity < load size pending + 1 + size a then pending :: pack [a] items
    else pack (pending ++ [a]) items

variable {size capacity} {pending items : List α}

theorem load_singleton (a : α) : load size [a] = size a := by simp [load]

theorem load_append (hp : pending ≠ []) (a : α) :
    load size (pending ++ [a]) = load size pending + 1 + size a := by
  have := List.length_pos_iff.mpr hp
  simp only [load, List.map_append, List.map_cons, List.map_nil, List.sum_append, List.sum_cons,
    List.sum_nil, List.length_append, List.length_cons, List.length_nil]
  omega

theorem flatten_pack : (pack size capacity pending items).flatten = pending ++ items := by
  induction items generalizing pending with
  | nil =>
    unfold pack
    split <;> simp [*]
  | cons a items ih =>
    unfold pack
    split <;> simp [ih]

theorem ne_nil_of_mem_pack (h : group ∈ pack size capacity pending items) : group ≠ [] := by
  induction items generalizing pending with
  | nil =>
    unfold pack at h
    split at h
    next => simp at h
    next hne =>
      rw [List.mem_singleton.mp h]
      exact hne
  | cons a items ih =>
    unfold pack at h
    split at h
    next hfull =>
      rcases List.mem_cons.mp h with rfl | h
      · exact hfull.1
      · exact ih h
    next => exact ih h

theorem load_le_of_mem_pack (hitems : ∀ a ∈ items, size a ≤ capacity)
    (hpending : load size pending ≤ capacity) (h : group ∈ pack size capacity pending items) :
    load size group ≤ capacity := by
  induction items generalizing pending with
  | nil =>
    unfold pack at h
    split at h
    next => simp at h
    next =>
      rw [List.mem_singleton.mp h]
      exact hpending
  | cons a items ih =>
    obtain ⟨ha, hitems⟩ := List.forall_mem_cons.mp hitems
    unfold pack at h
    split at h
    next hfull =>
      rcases List.mem_cons.mp h with rfl | h
      · exact hpending
      · exact ih hitems (by rwa [load_singleton]) h
    next hroom =>
      refine ih hitems ?_ h
      by_cases hp : pending = []
      · simpa [hp, load] using ha
      · rw [load_append hp]
        simp only [ne_eq, hp, not_false_eq_true, true_and, Nat.not_lt] at hroom
        exact hroom

theorem pack_cons (hp : pending ≠ []) : ∃ group groups,
    pack size capacity pending items = group :: groups ∧ load size pending ≤ load size group := by
  induction items generalizing pending with
  | nil => exact ⟨pending, [], by simp [pack, hp], Nat.le_refl _⟩
  | cons a items ih =>
    unfold pack
    split
    next => exact ⟨pending, _, rfl, Nat.le_refl _⟩
    next =>
      have hsome : pending ++ [a] ≠ [] := by simp
      obtain ⟨group, groups, he, hle⟩ := ih hsome
      rw [load_append hp] at hle
      exact ⟨group, groups, he, by omega⟩

theorem pack_chain : (pack size capacity pending items).IsChain
    fun g h => capacity ≤ load size g + load size h := by
  induction items generalizing pending with
  | nil =>
    unfold pack
    split <;> simp
  | cons a items ih =>
    unfold pack
    split
    next hfull =>
      have hfirst : ∃ group groups, pack size capacity [a] items = group :: groups ∧
          load size [a] ≤ load size group := pack_cons (List.cons_ne_nil a [])
      obtain ⟨group, groups, he, hle⟩ := hfirst
      have hchain := @ih [a]
      rw [he] at hchain ⊢
      rw [load_singleton] at hle
      exact List.isChain_cons_cons.mpr ⟨by omega, hchain⟩
    next => exact ih

theorem sum_load (size : α → Nat) {groups : List (List α)} (h : ∀ group ∈ groups, group ≠ []) :
    (groups.map (load size)).sum + groups.length =
      (groups.flatten.map size).sum + groups.flatten.length := by
  induction groups with
  | nil => rfl
  | cons group groups ih =>
    obtain ⟨hg, h⟩ := List.forall_mem_cons.mp h
    have := ih h
    have := List.length_pos_iff.mpr hg
    simp only [List.map_cons, List.sum_cons, List.length_cons, List.flatten_cons, List.map_append,
      List.sum_append, List.length_append, load] at *
    omega

theorem chain_bound {group : List α} {groups : List (List α)}
    (h : (group :: groups).IsChain fun g h => capacity ≤ load size g + load size h) :
    capacity * groups.length + load size group ≤
      2 * (load size group + (groups.map (load size)).sum) := by
  induction groups generalizing group with
  | nil =>
    simp only [List.length_nil, List.map_nil, List.sum_nil]
    omega
  | cons next groups ih =>
    obtain ⟨hpair, h⟩ := List.isChain_cons_cons.mp h
    have hrest := ih h
    rw [List.length_cons, Nat.mul_add, Nat.mul_one, List.map_cons, List.sum_cons]
    omega

theorem length_pack_le (hc : 0 < capacity) (hi : items ≠ []) :
    (pack size capacity [] items).length ≤
      2 * ((items.map size).sum + (items.length - 1)) / capacity + 1 := by
  have hne : ∀ group ∈ pack size capacity [] items, group ≠ [] := fun _ h => ne_nil_of_mem_pack h
  have hsum := sum_load size hne
  have hchain : (pack size capacity [] items).IsChain
      fun g h => capacity ≤ load size g + load size h := pack_chain
  rw [flatten_pack, List.nil_append] at hsum
  cases hg : pack size capacity [] items with
  | nil => simp
  | cons group groups =>
    rw [hg] at hsum hchain
    have hbound := chain_bound hchain
    simp only [List.map_cons, List.sum_cons, List.length_cons] at hsum ⊢
    have hpos := List.length_pos_iff.mpr hi
    refine Nat.succ_le_succ ((Nat.le_div_iff_mul_le hc).mpr ?_)
    rw [Nat.mul_comm]
    omega

theorem length_le_flatten {groups : List (List α)} (h : ∀ group ∈ groups, group ≠ []) :
    groups.length ≤ groups.flatten.length := by
  induction groups with
  | nil => simp
  | cons group groups ih =>
    obtain ⟨hg, h⟩ := List.forall_mem_cons.mp h
    have := ih h
    have := List.length_pos_iff.mpr hg
    simp only [List.length_cons, List.flatten_cons, List.length_append]
    omega

theorem length_pack_le_items :
    (pack size capacity [] items).length ≤ items.length := by
  have hle := length_le_flatten fun group (h : group ∈ pack size capacity [] items) =>
    ne_nil_of_mem_pack h
  rwa [flatten_pack, List.nil_append] at hle

end Packing
