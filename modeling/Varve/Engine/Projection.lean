import Varve.Lib.Sorted
import Varve.Engine.Pages

/-!
# Projected page sets

`merged` walks a resident map and its pending updates side by side, and the `project_*` functions
pack what it yields: the page set of the updated map without building that map.
-/

namespace Varve.Engine

open Journal (Digest)
open Sorted (Keys keys_cons notMem_of_lt toList_eq_iff)

variable {T : Type}

/-- The entries of both, with the update where a key has one. -/
def merged : List (Text × T) → List (Text × T) → List (Text × T)
  | left :: base, right :: updates =>
    match compare left.1 right.1 with
    | .lt => left :: merged base (right :: updates)
    | .gt => right :: merged (left :: base) updates
    | .eq => right :: merged base updates
  | base, [] => base
  | [], updates => updates
termination_by base updates => base.length + updates.length

section
variable {F : Type} [F64 F] (H : Digest) (table : Text)

def projectRollups (base updates : Map (RollupRow F)) (limits : PageLimits) :
    Except String PageSet :=
  encodeSet H table .rollup limits RollupRow.json validateRollup (fun _ => .ok ())
    (merged base.toList updates.toList)

def projectReceipts (base : Map ReceiptEntry) (requestId : Text) (receipt : ReceiptEntry)
    (limits : PageLimits) : Except String PageSet :=
  let update : Map ReceiptEntry := Map.ofList [(requestId, receipt)]
  encodeSet H table .receipt limits ReceiptEntry.json validateReceipt (fun _ => .ok ())
    (merged base.toList update.toList)

end

-- The merge

variable {base updates : List (Text × T)}

theorem mem_of_mem_merged (h : p ∈ merged base updates) : p ∈ base ∨ p ∈ updates := by
  fun_induction merged base updates with
  | case1 left base right updates hlt ih => grind
  | case2 left base right updates hgt ih => grind
  | case3 left base right updates heq ih => grind
  | case4 base => exact .inl h
  | case5 updates => exact .inr h

theorem merged_sorted (hb : Keys compare base) (hu : Keys compare updates) :
    Keys compare (merged base updates) := by
  fun_induction merged base updates with
  | case1 left base right updates hlt ih =>
    obtain ⟨hleft, hb⟩ := keys_cons.mp hb
    obtain ⟨hright, hu'⟩ := keys_cons.mp hu
    refine keys_cons.mpr ⟨?_, ih hb hu⟩
    intro q hq
    rcases mem_of_mem_merged hq with hq | hq
    · exact hleft q hq
    · rcases List.mem_cons.mp hq with rfl | hq
      · exact hlt
      · exact Std.TransCmp.lt_trans hlt (hright q hq)
  | case2 left base right updates hgt ih =>
    obtain ⟨hleft, hb'⟩ := keys_cons.mp hb
    obtain ⟨hright, hu⟩ := keys_cons.mp hu
    have hlt : compare right.1 left.1 = .lt := Std.OrientedCmp.lt_of_gt hgt
    refine keys_cons.mpr ⟨?_, ih hb hu⟩
    intro q hq
    rcases mem_of_mem_merged hq with hq | hq
    · rcases List.mem_cons.mp hq with rfl | hq
      · exact hlt
      · exact Std.TransCmp.lt_trans hlt (hleft q hq)
    · exact hright q hq
  | case3 left base right updates heq ih =>
    obtain ⟨hleft, hb⟩ := keys_cons.mp hb
    obtain ⟨hright, hu⟩ := keys_cons.mp hu
    have hkey : left.1 = right.1 := Std.LawfulEqCmp.eq_of_compare heq
    refine keys_cons.mpr ⟨?_, ih hb hu⟩
    intro q hq
    rcases mem_of_mem_merged hq with hq | hq
    · exact hkey ▸ hleft q hq
    · exact hright q hq
  | case4 base => exact hb
  | case5 updates => exact hu

theorem mem_merged (hb : Keys compare base) (hu : Keys compare updates) :
    (k, v) ∈ merged base updates ↔
      (k, v) ∈ updates ∨ (k, v) ∈ base ∧ ∀ w, (k, w) ∉ updates := by
  fun_induction merged base updates with
  | case1 left base right updates hlt ih =>
    obtain ⟨hleft, hb⟩ := keys_cons.mp hb
    obtain ⟨hright, hu'⟩ := keys_cons.mp hu
    have habove : ∀ q ∈ right :: updates, compare left.1 q.1 = .lt :=
      List.forall_mem_cons.mpr ⟨hlt, fun q hq => Std.TransCmp.lt_trans hlt (hright q hq)⟩
    have hnew : ∀ w, (left.1, w) ∉ right :: updates := notMem_of_lt habove
    rw [List.mem_cons, List.mem_cons (a := (k, v)) (b := left), ih hb hu]
    constructor
    · rintro (rfl | hm | hm)
      · exact .inr ⟨.inl rfl, hnew⟩
      · exact .inl hm
      · exact .inr ⟨.inr hm.1, hm.2⟩
    · rintro (hm | ⟨rfl | hm, hn⟩)
      · exact .inr (.inl hm)
      · exact .inl rfl
      · exact .inr (.inr ⟨hm, hn⟩)
  | case2 left base right updates hgt ih =>
    obtain ⟨hleft, hb'⟩ := keys_cons.mp hb
    obtain ⟨hright, hu⟩ := keys_cons.mp hu
    have hlt : compare right.1 left.1 = .lt := Std.OrientedCmp.lt_of_gt hgt
    have habove : ∀ q ∈ left :: base, compare right.1 q.1 = .lt :=
      List.forall_mem_cons.mpr ⟨hlt, fun q hq => Std.TransCmp.lt_trans hlt (hleft q hq)⟩
    have hother : ∀ x, (right.1, x) ∉ left :: base := notMem_of_lt habove
    simp only [List.mem_cons (b := right), ih hb hu, not_or, forall_and, or_assoc]
    constructor
    · rintro (hm | hm | ⟨hm, hn⟩)
      · exact .inl hm
      · exact .inr (.inl hm)
      · refine .inr (.inr ⟨hm, ?_, hn⟩)
        rintro w rfl
        exact hother v hm
    · rintro (hm | hm | ⟨hm, -, hn⟩)
      · exact .inl hm
      · exact .inr (.inl hm)
      · exact .inr (.inr ⟨hm, hn⟩)
  | case3 left base right updates heq ih =>
    obtain ⟨hleft, hb⟩ := keys_cons.mp hb
    obtain ⟨hright, hu⟩ := keys_cons.mp hu
    have hkey : left.1 = right.1 := Std.LawfulEqCmp.eq_of_compare heq
    have hother : ∀ x, (right.1, x) ∉ base := notMem_of_lt (hkey ▸ hleft)
    simp only [List.mem_cons, ih hb hu, not_or, forall_and, or_assoc]
    constructor
    · rintro (hm | hm | ⟨hm, hn⟩)
      · exact .inl hm
      · exact .inr (.inl hm)
      · refine .inr (.inr ⟨.inr hm, ?_, hn⟩)
        rintro w rfl
        exact hother v hm
    · rintro (hm | hm | ⟨rfl | hm, hne, hn⟩)
      · exact .inl hm
      · exact .inr (.inl hm)
      · exact (hne right.2 (Prod.ext hkey rfl)).elim
      · exact .inr (.inr ⟨hm, hn⟩)
  | case4 base => simp
  | case5 updates hne => simp

theorem merged_toList (base updates : Map T) :
    merged base.toList updates.toList = (base ∪ updates).toList := by
  have hb := Sorted.keys_toList base
  have hu := Sorted.keys_toList updates
  refine (toList_eq_iff.mpr ⟨merged_sorted hb hu, fun k v => ?_⟩).symm
  rw [mem_merged hb hu, Std.ExtTreeMap.getElem?_union, Option.or_eq_some_iff]
  simp only [Map.mem_toList, Option.eq_none_iff_forall_ne_some]
  tauto

theorem union_single (base : Map T) (k : Text) (v : T) :
    base ∪ Map.ofList [(k, v)] = base.insert k v := by
  refine Std.ExtTreeMap.ext_getElem? fun a => ?_
  simp only [Map.ofList, Std.ExtTreeMap.ofList_singleton, Std.ExtTreeMap.getElem?_union,
    Map.lookup_insert]
  split <;> simp

variable {F : Type} [F64 F]

/-- A projection is the page set of the updated map, whatever is done with the pages of the map
as long as it succeeds; and the merge behind it lists the updated map. -/
theorem projection_exact (H : Digest) (table : Text) (limits : PageLimits)
    (emit : Page → Except String Unit) (he : ∀ page, emit page = .ok ()) :
    (∀ base updates : Map (RollupRow F), projectRollups H table base updates limits =
      encodeRollups H table (base ∪ updates) limits emit) ∧
    (∀ (base : Map ReceiptEntry) (requestId : Text) (receipt : ReceiptEntry),
      projectReceipts H table base requestId receipt limits =
        encodeReceipts H table (base.insert requestId receipt) limits emit) ∧
    ∀ base updates : Map T, Keys compare (merged base.toList updates.toList) ∧
      ∀ k v, (k, v) ∈ merged base.toList updates.toList ↔
        updates[k]? = some v ∨ updates[k]? = none ∧ base[k]? = some v := by
  have hemit : emit = fun _ => .ok () := funext he
  subst hemit
  refine ⟨?_, ?_, ?_⟩
  · intro base updates
    rw [projectRollups, merged_toList, encodeRollups]
  · intro base requestId receipt
    rw [projectReceipts, merged_toList, union_single, encodeReceipts]
  · intro base updates
    rw [merged_toList]
    refine ⟨Sorted.keys_toList _, fun k v => ?_⟩
    rw [Map.mem_toList, Std.ExtTreeMap.getElem?_union, Option.or_eq_some_iff]

def firstReceipt : ReceiptEntry := ⟨1, 1, List.replicate 64 'a', none, none⟩

def secondReceipt : ReceiptEntry := ⟨2, 3, List.replicate 64 'b', none, none⟩

/-- A retried request replaces its receipt in the projection. -/
theorem projection_exact_retry :
    (∀ page : Page, (fun _ => .ok () : Page → Except String Unit) page = .ok ()) ∧
    projectReceipts Journal.blake3 "t".toList (Map.ofList [("a".toList, firstReceipt)]) "a".toList
        secondReceipt ⟨4096, 65536, 8⟩ =
      encodeReceipts Journal.blake3 "t".toList
        ((Map.ofList [("a".toList, firstReceipt)]).insert "a".toList secondReceipt)
        ⟨4096, 65536, 8⟩ fun _ => .ok () :=
  haveI : F64 Unit := ⟨fun _ => true, fun _ _ => (), fun _ _ => (), fun _ _ => (),
    fun _ _ => true, fun _ => ['0']⟩
  ⟨fun _ => rfl, (projection_exact (T := Unit) (F := Unit) _ _ _ _ fun _ => rfl).2.1 _ _ _⟩

end Varve.Engine
