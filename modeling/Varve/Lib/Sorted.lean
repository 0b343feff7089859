import Varve.Lib.Map

/-!
# Entries in key order

Association lists with strictly increasing keys.
-/

namespace Sorted

variable {κ : Type u} {α : Type v} {cmp : κ → κ → Ordering} {l m : List (κ × α)}

def Keys (cmp : κ → κ → Ordering) (l : List (κ × α)) : Prop :=
  l.Pairwise fun p q => cmp p.1 q.1 = .lt

theorem Keys.nil : Keys cmp ([] : List (κ × α)) := List.Pairwise.nil

theorem keys_cons {p : κ × α} :
    Keys cmp (p :: l) ↔ (∀ q ∈ l, cmp p.1 q.1 = .lt) ∧ Keys cmp l :=
  List.pairwise_cons

theorem Keys.filter (hl : Keys cmp l) (f : κ × α → Bool) : Keys cmp (l.filter f) :=
  List.Pairwise.filter f hl

theorem Keys.takeWhile_eq_filter (hl : Keys cmp l) {f : κ × α → Bool}
    (hf : ∀ p q, cmp p.1 q.1 = .lt → f q = true → f p = true) : l.takeWhile f = l.filter f := by
  induction l with
  | nil => rfl
  | cons p l ih =>
    obtain ⟨hp, hl⟩ := keys_cons.mp hl
    cases hfp : f p with
    | true => simp [hfp, ih hl]
    | false =>
      have hnone : l.filter f = [] := by
        refine List.filter_eq_nil_iff.mpr fun q hq hfq => ?_
        simp [hf p q (hp q hq) hfq] at hfp
      simp [hfp, hnone]

variable [Std.TransCmp cmp]

theorem keys_toList (t : Std.ExtTreeMap κ α cmp) : Keys cmp t.toList :=
  Std.ExtTreeMap.ordered_keys_toList

theorem notMem_of_lt (h : ∀ q ∈ l, cmp k q.1 = .lt) (v : α) : (k, v) ∉ l := by
  intro hv
  simpa [Std.ReflCmp.compare_self] using h _ hv

theorem Keys.nodup (h : Keys cmp l) : l.Nodup := by
  refine List.Pairwise.imp ?_ h
  rintro p q hlt rfl
  simp [Std.ReflCmp.compare_self] at hlt

theorem Keys.ext (hl : Keys cmp l) (hm : Keys cmp m) (h : ∀ p, p ∈ l ↔ p ∈ m) : l = m := by
  have hperm : l.Perm m := (List.perm_ext_iff_of_nodup hl.nodup hm.nodup).mpr h
  refine hperm.eq_of_pairwise ?_ hl hm
  intro p q _ _ hpq hqp
  have hgt := Std.OrientedCmp.gt_of_lt hpq
  simp [hqp] at hgt

theorem Keys.nodup_flatMap (hl : Keys cmp l) {g : κ × α → List β} (key : β → Option κ)
    (hg : ∀ p ∈ l, (g p).Nodup) (hk : ∀ p ∈ l, ∀ x ∈ g p, key x = some p.1) :
    (l.flatMap g).Nodup := by
  induction l with
  | nil => simp
  | cons p l ih =>
    obtain ⟨hp, hl⟩ := keys_cons.mp hl
    obtain ⟨hgp, hgl⟩ := List.forall_mem_cons.mp hg
    obtain ⟨hkp, hkl⟩ := List.forall_mem_cons.mp hk
    rw [List.flatMap_cons, List.nodup_append']
    refine ⟨hgp, ih hl hgl hkl, ?_⟩
    intro x hx hx'
    obtain ⟨q, hq, hxq⟩ := List.mem_flatMap.mp hx'
    have hlt := hp q hq
    have he : p.1 = q.1 := Option.some.inj ((hkp x hx).symm.trans (hkl q hq x hxq))
    simp [he, Std.ReflCmp.compare_self] at hlt

variable [Std.LawfulEqCmp cmp]

theorem toList_eq_iff {t : Std.ExtTreeMap κ α cmp} :
    t.toList = l ↔ Keys cmp l ∧ ∀ k v, (k, v) ∈ l ↔ t[k]? = some v := by
  constructor
  · rintro rfl
    exact ⟨keys_toList t, fun k v => Std.ExtTreeMap.mem_toList_iff_getElem?_eq_some⟩
  · rintro ⟨hl, hmem⟩
    refine (keys_toList t).ext hl ?_
    rintro ⟨k, v⟩
    rw [hmem]
    exact Std.ExtTreeMap.mem_toList_iff_getElem?_eq_some

theorem filter_key (t : Std.ExtTreeMap κ α cmp) [DecidableEq κ] (k : κ) :
    t.toList.filter (fun p => p.1 = k) = t[k]?.toList.map fun v => (k, v) := by
  refine ((keys_toList t).filter _).ext ?_ ?_
  · cases t[k]? <;> simp [Keys]
  · rintro ⟨a, v⟩
    simp only [List.mem_filter, Std.ExtTreeMap.mem_toList_iff_getElem?_eq_some, decide_eq_true_eq,
      List.mem_map, Option.mem_toList, Prod.mk.injEq]
    constructor
    · rintro ⟨hv, rfl⟩
      exact ⟨v, hv, rfl, rfl⟩
    · rintro ⟨w, hw, rfl, rfl⟩
      exact ⟨hw, rfl⟩

theorem exists_mem_toList [EmptyCollection α] (t : Std.ExtTreeMap κ α cmp) (k : κ) {P : α → Prop}
    (hP : ¬P ∅) : (∃ v, (k, v) ∈ t.toList ∧ P v) ↔ P (t[k]?.getD ∅) := by
  simp only [Std.ExtTreeMap.mem_toList_iff_getElem?_eq_some]
  cases t[k]? with
  | none => simpa using hP
  | some v => simp

end Sorted
