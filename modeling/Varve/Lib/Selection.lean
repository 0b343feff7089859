import Mathlib.Data.List.Induction
import Mathlib.Data.List.Sort
import Mathlib.Order.MinMax

/-!
# The smallest items of a stream

A heap of bounded size that gives up its largest item for a smaller one holds, in the end, the
smallest of all the items it was offered.
-/

namespace Selection

variable {α : Type u} [LinearOrder α] {items heap l m : List α} {capacity : Nat}

def largest : List α → Option α
  | [] => none
  | a :: l => some (l.foldl max a)

/-- A heap is the bag of its items, of which the largest can be seen and removed. -/
def offer (capacity : Nat) (heap : List α) (a : α) : List α :=
  if heap.length < capacity then a :: heap
  else
    match largest heap with
    | some b => if a < b then a :: heap.erase b else heap
    | none => heap

def sorted (l : List α) : List α := l.insertionSort (· ≤ ·)

theorem perm_sorted (l : List α) : (sorted l).Perm l := List.perm_insertionSort _ l

theorem pairwise_sorted (l : List α) : (sorted l).Pairwise (· ≤ ·) :=
  List.pairwise_insertionSort _ l

@[simp] theorem mem_sorted {a : α} : a ∈ sorted l ↔ a ∈ l := (perm_sorted l).mem_iff

@[simp] theorem length_sorted (l : List α) : (sorted l).length = l.length :=
  (perm_sorted l).length_eq

theorem sorted_eq (hp : l.Perm m) (hm : m.Pairwise (· ≤ ·)) : sorted l = m :=
  List.Perm.eq_of_pairwise (fun _ _ _ _ => le_antisymm) (pairwise_sorted l) hm
    ((perm_sorted l).trans hp)

theorem pairwise_lt_sorted (h : l.Nodup) : (sorted l).Pairwise (· < ·) := by
  have hnodup : (sorted l).Nodup := (perm_sorted l).nodup_iff.mpr h
  exact (pairwise_sorted l).imp₂ (fun _ _ hle hne => lt_of_le_of_ne hle hne) hnodup

theorem foldl_max (a : α) (l : List α) :
    l.foldl max a ∈ a :: l ∧ ∀ b ∈ a :: l, b ≤ l.foldl max a := by
  induction l generalizing a with
  | nil => simp
  | cons c l ih =>
    obtain ⟨hmem, hle⟩ := ih (max a c)
    have hmax := hle _ List.mem_cons_self
    rw [List.foldl_cons]
    refine ⟨?_, ?_⟩
    · rcases List.mem_cons.mp hmem with he | hl
      · rw [he]
        rcases max_choice a c with h | h <;> simp [h]
      · exact List.mem_cons_of_mem _ (List.mem_cons_of_mem _ hl)
    · intro b hb
      rcases List.mem_cons.mp hb with rfl | hb
      · exact (le_max_left _ _).trans hmax
      · rcases List.mem_cons.mp hb with rfl | hb
        · exact (le_max_right _ _).trans hmax
        · exact hle b (List.mem_cons_of_mem _ hb)

theorem largest_spec {a : α} (h : largest l = some a) : a ∈ l ∧ ∀ b ∈ l, b ≤ a := by
  cases l with
  | nil => cases h
  | cons c l =>
    cases h
    exact foldl_max c l

structure Split (capacity : Nat) (items heap rest : List α) : Prop where
  perm : items.Perm (heap ++ rest)
  size : heap.length ≤ capacity
  full : rest ≠ [] → heap.length = capacity
  below : ∀ a ∈ heap, ∀ b ∈ rest, a ≤ b

theorem Split.nil : Split capacity ([] : List α) [] [] :=
  ⟨.nil, Nat.zero_le _, fun h => absurd rfl h, fun _ h => (nomatch h)⟩

theorem Split.offer {rest : List α} (h : Split capacity items heap rest) (a : α) :
    ∃ rest', Split capacity (items ++ [a]) (offer capacity heap a) rest' := by
  have hadd : (items ++ [a]).Perm (a :: (heap ++ rest)) :=
    (List.perm_append_singleton a items).trans (h.perm.cons a)
  unfold Selection.offer
  split
  · rename_i hroom
    have hrest : rest = [] := by
      by_contra hne
      exact absurd (h.full hne) (Nat.ne_of_lt hroom)
    subst hrest
    exact ⟨[], hadd, hroom, fun hne => absurd rfl hne, fun _ _ _ hb => (nomatch hb)⟩
  · rename_i hfull
    have hsize : heap.length = capacity := Nat.le_antisymm h.size (Nat.le_of_not_lt hfull)
    split
    · rename_i b hmax
      obtain ⟨hmem, hle⟩ := largest_spec hmax
      have herase : heap.Perm (b :: heap.erase b) := List.perm_cons_erase hmem
      split
      · rename_i hlt
        refine ⟨b :: rest, ?_, ?_, fun _ => ?_, ?_⟩
        · refine hadd.trans (.cons a ?_)
          exact (herase.append_right rest).trans List.perm_middle.symm
        · rw [← hsize, herase.length_eq]
          exact Nat.le_refl _
        · rw [← hsize, herase.length_eq]
          rfl
        · intro x hx y hy
          rcases List.mem_cons.mp hx with rfl | hx
          · rcases List.mem_cons.mp hy with rfl | hy
            · exact hlt.le
            · exact hlt.le.trans (h.below _ hmem y hy)
          · have hin : x ∈ heap := List.mem_of_mem_erase hx
            rcases List.mem_cons.mp hy with rfl | hy
            · exact hle x hin
            · exact h.below x hin y hy
      · rename_i hnot
        refine ⟨a :: rest, hadd.trans List.perm_middle.symm, h.size, fun _ => hsize, ?_⟩
        intro x hx y hy
        rcases List.mem_cons.mp hy with rfl | hy
        · exact (hle x hx).trans (not_lt.mp hnot)
        · exact h.below x hx y hy
    · rename_i hmax
      have hnil : heap = [] := by
        cases heap with
        | nil => rfl
        | cons b heap => cases hmax
      subst hnil
      exact ⟨a :: rest, hadd, h.size, fun _ => hsize, fun _ hx => (nomatch hx)⟩

theorem split_foldl (capacity : Nat) (items : List α) :
    ∃ rest, Split capacity items (items.foldl (offer capacity) []) rest := by
  induction items using List.reverseRecOn with
  | nil => exact ⟨[], .nil⟩
  | append_singleton items a ih =>
    obtain ⟨rest, h⟩ := ih
    rw [List.foldl_append]
    exact h.offer a

theorem sorted_foldl (capacity : Nat) (items : List α) :
    sorted (items.foldl (offer capacity) []) = (sorted items).take capacity := by
  obtain ⟨rest, h⟩ := split_foldl capacity items
  have hall : sorted items = sorted (items.foldl (offer capacity) []) ++ sorted rest := by
    refine sorted_eq (h.perm.trans ((perm_sorted _).symm.append (perm_sorted _).symm)) ?_
    refine List.pairwise_append.mpr ⟨pairwise_sorted _, pairwise_sorted _, ?_⟩
    intro a ha b hb
    exact h.below a (mem_sorted.mp ha) b (mem_sorted.mp hb)
  rw [hall]
  by_cases hrest : rest = []
  · subst hrest
    rw [show sorted ([] : List α) = [] from rfl, List.append_nil,
      List.take_of_length_le (by rw [length_sorted]; exact h.size)]
  · rw [List.take_append_of_le_length (by rw [length_sorted, h.full hrest]),
      List.take_of_length_le (by rw [length_sorted]; exact h.size)]

end Selection
