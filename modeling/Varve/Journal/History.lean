import Varve.Journal.Recovery

/-!
# The records above the checkpoint

A history is the list of all records ever committed, the first under sequence one.
-/

namespace Varve.Journal

def above (checkpoint : Nat) (items : List (Nat × Bytes)) : List (Nat × Bytes) :=
  items.filter fun item => decide (checkpoint < item.1)

/-- The stretch of a history from sequence `a` up to `b`. -/
def stretch (K : List Bytes) (a b : Nat) : List (Nat × Bytes) :=
  numbered a ((K.drop (a - 1)).take (b - a))

theorem above_append : above c (items ++ more) = above c items ++ above c more :=
  List.filter_append ..

theorem above_numbered :
    above c (numbered a records) = numbered (max a (c + 1)) (records.drop (c + 1 - a)) := by
  induction records generalizing a with
  | nil => simp [numbered, above]
  | cons r rs ih =>
    by_cases h : c < a
    · have hdrop : c + 1 - a = 0 := by omega
      have hdrop' : c + 1 - (a + 1) = 0 := by omega
      have hmax : max a (c + 1) = a := by omega
      have hmax' : max (a + 1) (c + 1) = a + 1 := by omega
      have ih := ih (a := a + 1)
      rw [hdrop', hmax', List.drop_zero] at ih
      rw [hdrop, hmax, List.drop_zero, numbered, ← ih]
      simp [above, h]
    · have hdrop : c + 1 - a = c + 1 - (a + 1) + 1 := by omega
      have hmax : max a (c + 1) = max (a + 1) (c + 1) := by omega
      rw [hdrop, hmax, List.drop_succ_cons, ← ih]
      simp [above, numbered, h]

theorem above_stretch (ha : 0 < a) :
    above c (stretch K a b) = stretch K (max a (c + 1)) b := by
  rw [stretch, above_numbered, List.drop_take, List.drop_drop, stretch]
  by_cases h : a ≤ c + 1
  · have hmax : max a (c + 1) = c + 1 := by omega
    rw [hmax, show a - 1 + (c + 1 - a) = c + 1 - 1 by omega,
      show b - a - (c + 1 - a) = b - (c + 1) by omega]
  · have hmax : max a (c + 1) = a := by omega
    rw [hmax, show a - 1 + (c + 1 - a) = a - 1 by omega, show b - a - (c + 1 - a) = b - a by omega]

theorem above_history : above c (numbered 1 K) = stretch K (c + 1) (K.length + 1) := by
  rw [above_numbered, stretch, Nat.add_sub_cancel, Nat.add_sub_add_right,
    List.take_of_length_le (by simp), Nat.max_eq_right (by omega)]

theorem stretch_nil (h : b ≤ a) : stretch K a b = [] := by
  rw [stretch, Nat.sub_eq_zero_of_le h, List.take_zero, numbered]

theorem stretch_append (ha : 0 < a) (hm : a ≤ m) (hb : m ≤ b) :
    stretch K a m ++ stretch K m b = stretch K a b := by
  have hsplit : (K.drop (a - 1)).take (b - a) =
      (K.drop (a - 1)).take (m - a) ++ (K.drop (m - 1)).take (b - m) := by
    rw [show b - a = m - a + (b - m) by omega, List.take_add, List.drop_drop,
      show a - 1 + (m - a) = m - 1 by omega]
  rw [stretch, stretch, stretch, hsplit, numbered_append]
  by_cases hlen : m - 1 ≤ K.length
  · rw [List.length_take, List.length_drop,
      show a + min (m - a) (K.length - (a - 1)) = m by omega]
  · have hnil : K.drop (m - 1) = [] := List.drop_eq_nil_of_le (by omega)
    simp [hnil, numbered]

theorem numbered_stretch (h : records <+: K.drop (a - 1)) :
    numbered a records = stretch K a (a + records.length) := by
  rw [stretch, Nat.add_sub_cancel_left, ← List.prefix_iff_eq_take.mp h]

def items (ps : List Piece) : List (Nat × Bytes) := ps.flatMap fun p => numbered p.first p.records

theorem above_items (hchain : Chain c i n ps) (hn : 0 < n)
    (hK : ∀ p ∈ ps, p.records <+: K.drop (p.first - 1)) :
    above c (items ps) = stretch K (max n (c + 1)) (endNext n ps) := by
  induction ps generalizing i n with
  | nil =>
    rw [endNext_nil, stretch_nil (by omega)]
    rfl
  | cons p ps ih =>
    obtain ⟨⟨horder, hgap, -⟩, htail⟩ := hchain
    have hle := p.first_le_next
    have hend := htail.le_endNext
    have hmax : max p.first (c + 1) = max n (c + 1) := by omega
    have hp : above c (numbered p.first p.records) = stretch K (max n (c + 1)) p.next := by
      rw [numbered_stretch (hK p List.mem_cons_self), above_stretch (by omega), hmax]
      rfl
    rw [items, List.flatMap_cons, above_append, hp, ← items,
      ih htail (by omega) fun q hq => hK q (List.mem_cons_of_mem _ hq), endNext_cons]
    by_cases hc : p.next ≤ c + 1
    · rw [stretch_nil (by omega), List.nil_append, show max p.next (c + 1) = max n (c + 1) by omega]
    · rw [show max p.next (c + 1) = p.next by omega, stretch_append (by omega) (by omega) hend]

theorem above_items_history (hchain : Chain c i 1 ps)
    (hK : ∀ p ∈ ps, p.records <+: K.drop (p.first - 1))
    (hend : max (endNext 1 ps) (c + 1) = K.length + 1) :
    above c (items ps) = above c (numbered 1 K) := by
  rw [above_items hchain (by omega) hK, above_history, show max 1 (c + 1) = c + 1 by omega]
  by_cases h : endNext 1 ps ≤ c + 1
  · rw [stretch_nil h, stretch_nil (by omega)]
  · rw [show endNext 1 ps = K.length + 1 by omega]

theorem mem_numbered (hf : 0 < first) (hr : records <+: K.drop (first - 1))
    (hi : item ∈ numbered first records) : item ∈ numbered 1 K := by
  obtain ⟨rest, hrest⟩ := hr
  by_cases hlen : first - 1 ≤ K.length
  · have hK : K = K.take (first - 1) ++ (records ++ rest) := by
      rw [hrest, List.take_append_drop]
    have hfirst : 1 + (K.take (first - 1)).length = first := by
      rw [List.length_take, Nat.min_eq_left hlen]
      omega
    rw [hK, numbered_append, numbered_append, hfirst]
    exact List.mem_append_right _ (List.mem_append_left _ hi)
  · rw [List.drop_eq_nil_of_le (by omega)] at hrest
    rw [(List.append_eq_nil_iff.mp hrest).1] at hi
    cases hi

theorem items_replayed {config : JournalConfig} (hc : config.Valid)
    (hp : ∀ p ∈ ps, p.Ok config) : (replayed ps).flatMap ReplayGroup.items = items ps := by
  have hrecord := hc.record
  have hframe := hc.frame
  induction ps with
  | nil => rfl
  | cons p ps ih =>
    rw [replayed, List.flatMap_cons, List.flatMap_append, ← replayed,
      ih fun q hq => hp q (List.mem_cons_of_mem _ hq), items_replay, items, items,
      List.flatMap_cons]
    · rfl
    · intro g hg r hr
      have := ((hp p List.mem_cons_self).groups g hg).record r hr
      omega

end Varve.Journal
