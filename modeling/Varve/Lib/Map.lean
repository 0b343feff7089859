import Mathlib
import Varve.Lib.Except
import Varve.Lib.Json

/-!
# Ordered maps

Maps keyed by text, in key order, with what the standard library leaves out.
-/

abbrev Map (α : Type) := Std.ExtTreeMap Text α compare

namespace Map

open Std (ExtTreeMap)

variable {α β : Type}
variable {m : Map α}

def total (f : Text → α → Nat) (m : Map α) : Nat := (m.toList.map fun p => f p.1 p.2).sum

def ofList (l : List (Text × α)) : Map α := ExtTreeMap.ofList l compare

def json (f : α → Text) (m : Map α) : Text := Json.object (m.toList.map fun p => (p.1, f p.2))

theorem mem_toList {p : Text × α} : p ∈ m.toList ↔ m[p.1]? = some p.2 :=
  ExtTreeMap.mem_toList_iff_getElem?_eq_some

theorem nodup_toList : m.toList.Nodup :=
  ExtTreeMap.distinct_keys_toList.imp fun h he => h (by rw [he]; exact Std.ReflCmp.compare_self)

@[simp] theorem lookup_insert {k a : Text} {v : α} :
    (m.insert k v)[a]? = if k = a then some v else m[a]? := by
  simp [ExtTreeMap.getElem?_insert]

@[simp] theorem lookup_erase {k a : Text} :
    (m.erase k)[a]? = if k = a then none else m[a]? := by
  simp [ExtTreeMap.getElem?_erase]

theorem nodup_keys_toList (m : Map α) : (m.toList.map Prod.fst).Nodup := by
  refine List.pairwise_map.mpr (ExtTreeMap.distinct_keys_toList.imp fun h he => h ?_)
  rw [he]
  exact Std.ReflCmp.compare_self

theorem toList_insert_perm (m : Map α) (k : Text) (v : α) :
    (m.insert k v).toList.Perm ((k, v) :: m.toList.filter fun p => p.1 ≠ k) := by
  have hr : ((k, v) :: m.toList.filter fun p => p.1 ≠ k).Nodup :=
    List.nodup_cons.mpr ⟨by simp, nodup_toList.filter _⟩
  refine (List.perm_ext_iff_of_nodup nodup_toList hr).mpr fun p => ?_
  obtain ⟨a, w⟩ := p
  simp only [mem_toList, lookup_insert, List.mem_cons, List.mem_filter, Prod.mk.injEq]
  by_cases h : k = a
  · simp [h, eq_comm]
  · simp [h, Ne.symm h]

theorem toList_perm_of_lookup {k : Text} {v : α} (h : m[k]? = some v) :
    m.toList.Perm ((k, v) :: m.toList.filter fun p => p.1 ≠ k) := by
  have hsame : m.insert k v = m := by
    refine ExtTreeMap.ext_getElem? fun a => ?_
    rw [lookup_insert]
    split
    next he => rw [← he, h]
    next => rfl
  have := toList_insert_perm m k v
  rwa [hsame] at this

theorem total_insert {f : Text → α → Nat} {k : Text} {v w : α} (h : m[k]? = some v) :
    Map.total f (m.insert k w) + f k v = m.total f + f k w := by
  have hnew := ((toList_insert_perm m k w).map fun p => f p.1 p.2).sum_eq
  have hold := ((toList_perm_of_lookup h).map fun p => f p.1 p.2).sum_eq
  simp only [List.map_cons, List.sum_cons] at hnew hold
  simp only [total]
  omega

theorem total_insert_new {f : Text → α → Nat} {k : Text} {w : α} (h : m[k]? = none) :
    Map.total f (m.insert k w) = m.total f + f k w := by
  have hsum := ((toList_insert_perm m k w).map fun p => f p.1 p.2).sum_eq
  have hkeep : m.toList.filter (fun p => p.1 ≠ k) = m.toList := by
    refine List.filter_eq_self.mpr fun p hp => ?_
    have hp := mem_toList.mp hp
    by_cases he : p.1 = k
    · simp [he, h] at hp
    · simp [he]
  rw [hkeep] at hsum
  simp only [List.map_cons, List.sum_cons] at hsum
  simp only [total]
  omega

theorem forall_insert {P : Text → α → Prop} {k : Text} {v : α} (hk : P k v)
    (h : ∀ (a : Text) w, m[a]? = some w → P a w) (a : Text) (w : α)
    (ha : (m.insert k v)[a]? = some w) : P a w := by
  rw [lookup_insert] at ha
  split at ha
  next he =>
    cases ha
    exact he ▸ hk
  next => exact h a w ha

theorem lookup_foldl (op : Map β → Text × α → Map β) (g : Text → α → Option β → Option β)
    (hop : ∀ m p t, (op m p)[t]? = if p.1 = t then g p.1 p.2 m[t]? else m[t]?) (a : Map α)
    (m : Map β) (t : Text) :
    (a.toList.foldl op m)[t]? = a[t]?.elim m[t]? fun v => g t v m[t]? := by
  have hlist : ∀ (l : List (Text × α)) (m : Map β), (l.map Prod.fst).Nodup →
      (l.foldl op m)[t]? = (l.lookup t).elim m[t]? fun v => g t v m[t]? := by
    intro l
    induction l with
    | nil => exact fun m _ => rfl
    | cons p l ih =>
      intro m hl
      obtain ⟨k, v⟩ := p
      rw [List.map_cons, List.nodup_cons] at hl
      rw [List.foldl_cons, ih _ hl.2, hop]
      by_cases hk : k = t
      · subst hk
        have hnone : l.lookup k = none :=
          List.lookup_eq_none_iff.mpr fun q hq => by
            simpa using fun he : k = q.1 => hl.1 (List.mem_map.mpr ⟨q, hq, he.symm⟩)
        simp [hnone]
      · rw [if_neg hk, List.lookup_cons, beq_eq_false_iff_ne.mpr (Ne.symm hk)]
  have hlook : a.toList.lookup t = a[t]? := by
    cases hl : a.toList.lookup t with
    | none =>
      cases hv : a[t]? with
      | none => rfl
      | some v =>
        have hne := List.lookup_eq_none_iff.mp hl (t, v) (mem_toList.mpr hv)
        simp at hne
    | some v =>
      obtain ⟨l, r, he, -⟩ := List.lookup_eq_some_iff.mp hl
      have hm : (t, v) ∈ a.toList := by simp [he]
      exact (mem_toList.mp hm).symm
  rw [hlist _ _ (nodup_keys_toList a), hlook]

end Map
