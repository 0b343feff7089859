import Varve.Lib.Run
import Varve.Lib.Sorted
import Varve.Rollup.Summary

/-!
# The rollup index

`derived.rs`: the keys of a rollup map under their width, tenant, series and bucket, kept beside
the map by `insert` and read by `select`, which seeks the selected part of each level instead of
scanning the map.
-/

namespace Varve.Rollup

open Engine
open Result (ensure)

abbrev Keys := Std.ExtTreeSet Text compare
abbrev Buckets := Std.ExtTreeMap Int Keys compare
abbrev Series := Map Buckets
abbrev Tenants := Map Series

structure RollupIndex where
  widths : Std.ExtTreeMap Int Tenants compare
  residentBytes : Nat

/-- Exact tenant and series filters and a half-open range of buckets. -/
structure RollupSelection where
  tenant : Option Text
  series : Option Text
  widthUs : Option Int
  startUs : Option Int
  endUs : Option Int
deriving DecidableEq

section
variable {F : Type}

namespace RollupIndex

def empty : RollupIndex := ⟨∅, 0⟩

/-- The keys of a bucket; there are none where a level is missing. -/
def keysAt (index : RollupIndex) (b : Bucket) : Keys :=
  (((index.widths[b.widthUs]?.getD ∅)[b.tenant]?.getD ∅)[b.series]?.getD ∅)[b.startUs]?.getD ∅

/-- The chain of `entry(..).or_default()`. -/
def enter (index : RollupIndex) (key : Text) (row : RollupRow F) :
    Std.ExtTreeMap Int Tenants compare :=
  let tenants := index.widths[row.widthUs]?.getD ∅
  let series := tenants[row.tenant]?.getD ∅
  let buckets := series[row.series]?.getD ∅
  let keys := buckets[row.bucketUs]?.getD ∅
  index.widths.insert row.widthUs (tenants.insert row.tenant (series.insert row.series
    (buckets.insert row.bucketUs (keys.insert key))))

def insert (index : RollupIndex) (key : Text) (row : RollupRow F) (budget : Nat) :
    Except String RollupIndex := do
  ensure (key = canonicalKey row) "noncanonical rollup index key"
  if key ∈ index.keysAt (rollupBucket row) then .ok index
  else do
    ensure (index.residentBytes + indexEntryBytes key row ≤ u64Max)
      "rollup index accounting overflow"
    ensure (index.residentBytes + indexEntryBytes key row ≤ budget)
      "rollup index resident budget exceeded"
    .ok ⟨index.enter key row, index.residentBytes + indexEntryBytes key row⟩

def rebuild (rows : Map (RollupRow F)) (budget : Nat) : Except String RollupIndex :=
  rows.toList.foldlM (fun index p => index.insert p.1 p.2 budget) empty

end RollupIndex

def selectionBytes (n : Nat) : Nat := n * (4 * 16)

section
variable (rows : Map (RollupRow F)) (selection : RollupSelection) (workingBudget : Nat)

/-- One key of a bucket, looked up in the map and pushed. -/
def pushKey (keys : List Text) (key : Text) : Except String (List Text) :=
  match rows[key]? with
  | none => .error "rollup index references missing row"
  | some row =>
    if selection.endUs.any (· ≤ row.bucketUs) then .ok keys
    else do
      ensure (selectionBytes (keys.length + 1) ≤ u64Max) "rollup selection accounting overflow"
      ensure (selectionBytes (keys.length + 1) ≤ workingBudget)
        "rollup selection working budget exceeded"
      .ok (keys ++ [key])

def visitBuckets (keys : List Text) (buckets : Buckets) : Except String (List Text) :=
  let seek := buckets.toList.filter fun p => selection.startUs.getD i64Min ≤ p.1
  (seek.takeWhile fun p => selection.endUs.all (p.1 < ·)).foldlM
    (fun keys p => p.2.toList.foldlM (pushKey rows selection workingBudget) keys) keys

def visitSeries (series : Series) (selected : Option Text)
    (visit : σ → Buckets → Except String σ) (s : σ) : Except String σ :=
  match selected with
  | some name => series[name]?.elim (.ok s) (visit s)
  | none => series.toList.foldlM (fun s p => visit s p.2) s

def visitTenants (keys : List Text) (tenants : Tenants) : Except String (List Text) :=
  let visit := visitBuckets rows selection workingBudget
  match selection.tenant with
  | some tenant =>
    tenants[tenant]?.elim (.ok keys) fun series => visitSeries series selection.series visit keys
  | none => tenants.toList.foldlM (fun keys p => visitSeries p.2 selection.series visit keys) keys

def RollupIndex.select (index : RollupIndex) : Except String (List (RollupRow F)) := do
  ensure (∀ first ∈ selection.startUs, ∀ last ∈ selection.endUs, first ≤ last)
    "invalid rollup half-open bucket range"
  let seek := index.widths.toList.filter fun p =>
    selection.widthUs.getD i64Min ≤ p.1 ∧ p.1 ≤ selection.widthUs.getD i64Max
  let keys ← seek.foldlM (fun keys p => visitTenants rows selection workingBudget keys p.2) []
  (keys.mergeSort fun a b => (compare a b).isLE).mapM fun key =>
    context rows[key]? "rollup index references missing row"

end

-- The index beside its map

def Typed (row : RollupRow F) : Prop :=
  i64Min ≤ row.widthUs ∧ row.widthUs ≤ i64Max ∧ i64Min ≤ row.bucketUs ∧ row.bucketUs ≤ i64Max

structure Indexed (F : Type) where
  rows : Map (RollupRow F)
  index : RollupIndex

/-- A rebuilt index, then new keys and replacements, each entered in both. -/
def indexing (F : Type) : Machine (Indexed F) (Text × RollupRow F × Nat) where
  init s := (∀ (key : Text) (row : RollupRow F), s.rows[key]? = some row → Typed row) ∧
    ∃ budget, RollupIndex.rebuild s.rows budget = .ok s.index
  step s a s' := Typed a.2.1 ∧ s.index.insert a.1 a.2.1 a.2.2 = .ok s'.index ∧
    s'.rows = s.rows.insert a.1 a.2.1

/-- The same width, tenant, series and bucket, whatever the tags. -/
def SamePlace (b c : Bucket) : Prop :=
  b.widthUs = c.widthUs ∧ b.tenant = c.tenant ∧ b.series = c.series ∧ b.startUs = c.startUs

theorem getD_insert {κ α : Type} [Ord κ] [Std.TransOrd κ] [Std.LawfulEqOrd κ] [DecidableEq κ]
    [EmptyCollection α] (m : Std.ExtTreeMap κ α compare) (a b : κ) (v : α) :
    (m.insert a v)[b]?.getD ∅ = if a = b then v else m[b]?.getD ∅ := by
  simp only [Std.ExtTreeMap.getElem?_insert, Std.LawfulEqCmp.compare_eq_iff_eq]
  split <;> rfl

theorem mem_keysAt_enter (index : RollupIndex) (key : Text) (row : RollupRow F) (n : Nat)
    (b : Bucket) (k : Text) : k ∈ RollupIndex.keysAt ⟨index.enter key row, n⟩ b ↔
      k = key ∧ SamePlace (rollupBucket row) b ∨ k ∈ index.keysAt b := by
  unfold RollupIndex.keysAt RollupIndex.enter SamePlace rollupBucket
  simp only [getD_insert]
  by_cases hw : row.widthUs = b.widthUs
  · by_cases ht : row.tenant = b.tenant
    · by_cases hs : row.series = b.series
      · by_cases hb : row.bucketUs = b.startUs
        · simp [hw, ht, hs, hb, Std.ExtTreeSet.mem_insert, @eq_comm _ k key]
        · simp [hw, ht, hs, hb, getD_insert]
      · simp [hw, ht, hs]
    · simp [hw, ht]
  · simp [hw]

/-- The index holds the keys of the map, each at the place its row names. -/
structure Agrees (s : Indexed F) : Prop where
  canonical : ∀ (key : Text) (row : RollupRow F), s.rows[key]? = some row → key = canonicalKey row
  typed : ∀ (key : Text) (row : RollupRow F), s.rows[key]? = some row → Typed row
  holds : ∀ b k, k ∈ s.index.keysAt b ↔
    ∃ row : RollupRow F, s.rows[k]? = some row ∧ SamePlace (rollupBucket row) b
  bytes : s.index.residentBytes = s.rows.total indexEntryBytes

theorem agrees_empty : Agrees (⟨∅, .empty⟩ : Indexed F) where
  canonical := by simp
  typed := by simp
  holds := by simp [RollupIndex.keysAt, RollupIndex.empty]
  bytes := rfl

theorem bucket_eq {row row' : RollupRow F} (h : canonicalKey row = canonicalKey row') :
    rollupBucket row = rollupBucket row' :=
  Bucket.key_injective h

variable {s : Indexed F}

theorem Agrees.insert (h : Agrees s) (ht : Typed row)
    (hi : s.index.insert key row budget = .ok index) :
    Agrees ⟨s.rows.insert key row, index⟩ := by
  simp only [RollupIndex.insert, Result.ensure_bind] at hi
  obtain ⟨hkey, hi⟩ := hi
  have hsame : ∀ row', s.rows[key]? = some row' → rollupBucket row' = rollupBucket row :=
    fun row' hrow => bucket_eq ((h.canonical key row' hrow).symm.trans hkey)
  have hcanonical := Map.forall_insert (P := fun k q => k = canonicalKey q) hkey h.canonical
  have htyped := Map.forall_insert (P := fun _ q => Typed q) (k := key) ht h.typed
  split at hi
  next hold =>
    cases hi
    obtain ⟨old, hold, -⟩ := (h.holds _ _).mp hold
    have hb := hsame old hold
    refine ⟨hcanonical, htyped, ?_, ?_⟩
    · intro b k
      rw [h.holds]
      simp only [Map.lookup_insert]
      by_cases hk : key = k
      · subst hk
        simp [hold, hb]
      · simp [hk]
    · have htotal := Map.total_insert (f := indexEntryBytes) (w := row) hold
      have he : indexEntryBytes key old = indexEntryBytes key row := by
        simp only [rollupBucket, Bucket.mk.injEq] at hb
        simp [indexEntryBytes, hb]
      rw [h.bytes]
      dsimp only
      omega
  next hnew =>
    simp only [Result.ensure_bind, Except.ok.injEq] at hi
    obtain ⟨-, -, rfl⟩ := hi
    have hnone : s.rows[key]? = none := by
      cases hold : s.rows[key]? with
      | none => rfl
      | some old =>
        refine absurd ((h.holds _ _).mpr ⟨old, hold, ?_⟩) hnew
        rw [hsame old hold]
        exact ⟨rfl, rfl, rfl, rfl⟩
    refine ⟨hcanonical, htyped, ?_, ?_⟩
    · intro b k
      rw [mem_keysAt_enter, h.holds]
      simp only [Map.lookup_insert]
      by_cases hk : key = k
      · subst hk
        simp [hnone]
      · simp [hk, Ne.symm hk]
    · rw [Map.total_insert_new hnone, h.bytes]

theorem Agrees.foldlM {l : List (Text × RollupRow F)} (h : Agrees s)
    (ht : ∀ p ∈ l, Typed p.2)
    (hi : l.foldlM (fun index p => RollupIndex.insert index p.1 p.2 budget) s.index = .ok index) :
    Agrees ⟨l.foldl (fun rows p => rows.insert p.1 p.2) s.rows, index⟩ := by
  induction l generalizing s with
  | nil =>
    cases hi
    exact h
  | cons p l ih =>
    obtain ⟨htp, htl⟩ := List.forall_mem_cons.mp ht
    obtain ⟨middle, hp, hl⟩ := Result.bind_ok.mp hi
    exact ih (h.insert htp hp) htl hl

theorem foldl_insert_toList (rows : Map (RollupRow F)) :
    rows.toList.foldl (fun m p => m.insert p.1 p.2) (∅ : Map (RollupRow F)) = rows := by
  refine Std.ExtTreeMap.ext_getElem? fun k => ?_
  rw [Map.lookup_foldl _ (fun _ v _ => some v) (fun m p t => Map.lookup_insert)]
  cases rows[k]? <;> simp

theorem agrees_reachable (h : (indexing F).Reachable s) : Agrees s := by
  refine h.invariant ?_ ?_
  · rintro ⟨rows, index⟩ ⟨htyped, budget, hr⟩
    have hl := agrees_empty.foldlM (l := rows.toList)
      (fun p hp => htyped p.1 p.2 (Map.mem_toList.mp hp)) hr
    rwa [foldl_insert_toList] at hl
  · rintro s ⟨key, row, budget⟩ ⟨rows, index⟩ ha ⟨ht, hi, hrows⟩
    cases hrows
    exact ha.insert ht hi

-- Selection against a linear filter

namespace RollupSelection

def Matches (selection : RollupSelection) (row : RollupRow F) : Prop :=
  (∀ w ∈ selection.widthUs, row.widthUs = w) ∧ (∀ t ∈ selection.tenant, row.tenant = t) ∧
    (∀ s ∈ selection.series, row.series = s) ∧ (∀ first ∈ selection.startUs, first ≤ row.bucketUs) ∧
    ∀ last ∈ selection.endUs, row.bucketUs < last

instance (selection : RollupSelection) (row : RollupRow F) : Decidable (selection.Matches row) :=
  inferInstanceAs (Decidable (_ ∧ _))

def Valid (selection : RollupSelection) : Prop :=
  ∀ first ∈ selection.startUs, ∀ last ∈ selection.endUs, first ≤ last

instance (selection : RollupSelection) : Decidable selection.Valid :=
  inferInstanceAs (Decidable (∀ _ ∈ _, _))

end RollupSelection

def matching (rows : Map (RollupRow F)) (selection : RollupSelection) :
    List (Text × RollupRow F) :=
  rows.toList.filter fun p => selection.Matches p.2

variable (selection : RollupSelection)

def chosen (o : Option Text) (m : Map α) : List (Text × α) :=
  m.toList.filter fun p => o.all (p.1 = ·)

def inRange (buckets : Buckets) : List (Int × Keys) :=
  buckets.toList.filter fun p =>
    selection.startUs.getD i64Min ≤ p.1 ∧ selection.endUs.all (p.1 < ·)

def ofWidth (index : RollupIndex) : List (Int × Tenants) :=
  index.widths.toList.filter fun p =>
    selection.widthUs.getD i64Min ≤ p.1 ∧ p.1 ≤ selection.widthUs.getD i64Max

def walk (index : RollupIndex) : List Text :=
  (ofWidth selection index).flatMap fun tenants =>
    (chosen selection.tenant tenants.2).flatMap fun series =>
      (chosen selection.series series.2).flatMap fun buckets =>
        (inRange selection buckets.2).flatMap fun keys => keys.2.toList

theorem foldlM_flatMap {l : List α} {g : α → List β} {f : σ → β → Except ε σ} {s : σ} :
    (l.flatMap g).foldlM f s = l.foldlM (fun s a => (g a).foldlM f s) s := by
  induction l generalizing s with
  | nil => rfl
  | cons a l ih => simp only [List.flatMap_cons, List.foldlM_append, List.foldlM_cons, ih]

theorem chosen_foldlM {o : Option Text} {m : Map α} {f : σ → α → Except ε σ} {s : σ} :
    (chosen o m).foldlM (fun s p => f s p.2) s =
      o.elim (m.toList.foldlM (fun s p => f s p.2) s) fun k => m[k]?.elim (.ok s) (f s) := by
  cases o with
  | none => simp [chosen]
  | some k =>
    have hk := Sorted.filter_key m k
    simp only [chosen, Option.all_some, hk, Option.elim_some]
    cases m[k]? with
    | none => rfl
    | some v => simp [List.foldlM_cons]

theorem visitSeries_eq (series : Series) (selected : Option Text)
    (visit : σ → Buckets → Except String σ) (s : σ) :
    visitSeries series selected visit s =
      (chosen selected series).foldlM (fun s p => visit s p.2) s := by
  rw [chosen_foldlM]
  cases selected <;> rfl

theorem visitBuckets_eq (rows : Map (RollupRow F)) (budget : Nat) (keys : List Text)
    (buckets : Buckets) : visitBuckets rows selection budget keys buckets =
      ((inRange selection buckets).flatMap fun p => p.2.toList).foldlM
        (pushKey rows selection budget) keys := by
  have hsorted := (Sorted.keys_toList buckets).filter
    fun p => selection.startUs.getD i64Min ≤ p.1
  have hwhile := hsorted.takeWhile_eq_filter (f := fun p => selection.endUs.all (p.1 < ·)) <| by
    intro p q hlt hq
    have hlt : p.1 < q.1 := compare_lt_iff_lt.mp hlt
    cases he : selection.endUs with
    | none => rfl
    | some last =>
      simp only [he, Option.all_some, decide_eq_true_eq] at hq ⊢
      omega
  rw [foldlM_flatMap, visitBuckets, hwhile, List.filter_filter, inRange]
  simp only [Bool.and_comm, Bool.decide_and, Bool.decide_eq_true]

theorem visitTenants_eq (rows : Map (RollupRow F)) (budget : Nat) (keys : List Text)
    (tenants : Tenants) : visitTenants rows selection budget keys tenants =
      ((chosen selection.tenant tenants).flatMap fun series =>
        (chosen selection.series series.2).flatMap fun buckets =>
          (inRange selection buckets.2).flatMap fun keys => keys.2.toList).foldlM
        (pushKey rows selection budget) keys := by
  have hseries : ∀ keys (series : Series),
      visitSeries series selection.series (visitBuckets rows selection budget) keys =
        ((chosen selection.series series).flatMap fun buckets =>
          (inRange selection buckets.2).flatMap fun keys => keys.2.toList).foldlM
          (pushKey rows selection budget) keys := by
    intro keys series
    rw [visitSeries_eq, foldlM_flatMap]
    simp only [visitBuckets_eq]
  rw [foldlM_flatMap]
  simp only [← hseries]
  rw [chosen_foldlM (f := fun keys series =>
    visitSeries series selection.series (visitBuckets rows selection budget) keys)]
  unfold visitTenants
  cases selection.tenant <;> rfl

theorem select_eq (rows : Map (RollupRow F)) (budget : Nat) (index : RollupIndex) :
    index.select rows selection budget = (do
      ensure selection.Valid "invalid rollup half-open bucket range"
      let keys ← (walk selection index).foldlM (pushKey rows selection budget) []
      (keys.mergeSort fun a b => (compare a b).isLE).mapM fun key =>
        context rows[key]? "rollup index references missing row") := by
  rw [walk, foldlM_flatMap]
  simp only [← visitTenants_eq]
  rfl

theorem mem_keysAt (index : RollupIndex) (b : Bucket) (k : Text) : k ∈ index.keysAt b ↔
    ∃ tenants, (b.widthUs, tenants) ∈ index.widths.toList ∧
      ∃ series, (b.tenant, series) ∈ tenants.toList ∧
        ∃ buckets, (b.series, buckets) ∈ series.toList ∧
          ∃ keys, (b.startUs, keys) ∈ buckets.toList ∧ k ∈ keys := by
  have hk := fun buckets : Buckets =>
    Sorted.exists_mem_toList buckets b.startUs (P := (k ∈ ·)) (by simp)
  have hs := fun series : Series => Sorted.exists_mem_toList series b.series
    (P := fun buckets => k ∈ buckets[b.startUs]?.getD ∅) (by simp)
  have ht := fun tenants : Tenants => Sorted.exists_mem_toList tenants b.tenant
    (P := fun series => k ∈ (series[b.series]?.getD ∅)[b.startUs]?.getD ∅) (by simp)
  have hw := Sorted.exists_mem_toList index.widths b.widthUs
    (P := fun tenants => k ∈ ((tenants[b.tenant]?.getD ∅)[b.series]?.getD ∅)[b.startUs]?.getD ∅)
    (by simp)
  simp only [hk, hs, ht]
  exact hw.symm

theorem mem_walk_iff (index : RollupIndex) (k : Text) : k ∈ walk selection index ↔
    ∃ b : Bucket, k ∈ index.keysAt b ∧
      (selection.widthUs.getD i64Min ≤ b.widthUs ∧ b.widthUs ≤ selection.widthUs.getD i64Max) ∧
      selection.tenant.all (b.tenant = ·) ∧ selection.series.all (b.series = ·) ∧
      selection.startUs.getD i64Min ≤ b.startUs ∧ selection.endUs.all (b.startUs < ·) := by
  simp only [mem_keysAt, walk, ofWidth, chosen, inRange, List.mem_flatMap, List.mem_filter,
    Std.ExtTreeSet.mem_toList, decide_eq_true_eq]
  constructor
  · rintro ⟨⟨w, tenants⟩, ⟨hw, hwc⟩, ⟨t, series⟩, ⟨ht, htc⟩, ⟨s, buckets⟩, ⟨hs, hsc⟩,
      ⟨b, keys⟩, ⟨hb, hbc⟩, hk⟩
    exact ⟨⟨w, b, t, s, ∅⟩, ⟨tenants, hw, series, ht, buckets, hs, keys, hb, hk⟩, hwc, htc, hsc,
      hbc⟩
  · rintro ⟨b, ⟨tenants, hw, series, ht, buckets, hs, keys, hb, hk⟩, hwc, htc, hsc, hbc⟩
    exact ⟨(b.widthUs, tenants), ⟨hw, hwc⟩, (b.tenant, series), ⟨ht, htc⟩, (b.series, buckets),
      ⟨hs, hsc⟩, (b.startUs, keys), ⟨hb, hbc⟩, hk⟩

theorem Agrees.mem_walk (h : Agrees s) (k : Text) :
    k ∈ walk selection s.index ↔
      ∃ row : RollupRow F, s.rows[k]? = some row ∧ selection.Matches row := by
  rw [mem_walk_iff]
  constructor
  · rintro ⟨b, hk, ⟨hlo, hhi⟩, ht, hs, hfirst, hlast⟩
    obtain ⟨row, hrow, hw', ht', hs', hb'⟩ := (h.holds b k).mp hk
    simp only [rollupBucket] at hw' ht' hs' hb'
    refine ⟨row, hrow, ?_, ?_, ?_, ?_, ?_⟩
    · intro w hw
      simp only [Option.mem_def.mp hw, Option.getD_some] at hlo hhi
      omega
    · intro t ht₂
      simpa [Option.mem_def.mp ht₂, ht'] using ht
    · intro s hs₂
      simpa [Option.mem_def.mp hs₂, hs'] using hs
    · intro first hf
      simpa [Option.mem_def.mp hf, hb'] using hfirst
    · intro last hl
      simpa [Option.mem_def.mp hl, hb'] using hlast
  · rintro ⟨row, hrow, hw, ht, hs, hfirst, hlast⟩
    obtain ⟨hw₁, hw₂, hb₁, hb₂⟩ := h.typed k row hrow
    refine ⟨rollupBucket row, (h.holds _ k).mpr ⟨row, hrow, rfl, rfl, rfl, rfl⟩, ⟨?_, ?_⟩, ?_, ?_,
      ?_, ?_⟩
    · cases hsel : selection.widthUs with
      | none => exact hw₁
      | some w => exact (hw w hsel).ge
    · cases hsel : selection.widthUs with
      | none => exact hw₂
      | some w => exact (hw w hsel).le
    · cases hsel : selection.tenant with
      | none => rfl
      | some t => exact decide_eq_true (ht t hsel)
    · cases hsel : selection.series with
      | none => rfl
      | some t => exact decide_eq_true (hs t hsel)
    · cases hsel : selection.startUs with
      | none => exact hb₁
      | some first => exact hfirst first hsel
    · cases hsel : selection.endUs with
      | none => rfl
      | some last => exact decide_eq_true (hlast last hsel)

theorem Agrees.nodup_walk (h : Agrees s) : (walk selection s.index).Nodup := by
  have hrow : ∀ {w t n b k} {tenants : Tenants} {series : Series} {buckets : Buckets} {keys : Keys},
      (w, tenants) ∈ s.index.widths.toList → (t, series) ∈ tenants.toList →
      (n, buckets) ∈ series.toList → (b, keys) ∈ buckets.toList → k ∈ keys →
      ∃ row : RollupRow F, s.rows[k]? = some row ∧
        SamePlace (rollupBucket row) ⟨w, b, t, n, ∅⟩ := by
    intro w t n b k tenants series buckets keys hw ht hs hb hk
    exact (h.holds ⟨w, b, t, n, ∅⟩ k).mp
      ((mem_keysAt _ _ _).mpr ⟨tenants, hw, series, ht, buckets, hs, keys, hb, hk⟩)
  unfold walk
  refine ((Sorted.keys_toList _).filter _).nodup_flatMap
    (fun k => s.rows[k]?.map fun row => row.widthUs) ?_ ?_
  · rintro ⟨w, tenants⟩ hw
    have hw := (List.mem_filter.mp hw).1
    refine ((Sorted.keys_toList _).filter _).nodup_flatMap
      (fun k => s.rows[k]?.map fun row => row.tenant) ?_ ?_
    · rintro ⟨t, series⟩ ht
      have ht := (List.mem_filter.mp ht).1
      refine ((Sorted.keys_toList _).filter _).nodup_flatMap
        (fun k => s.rows[k]?.map fun row => row.series) ?_ ?_
      · rintro ⟨n, buckets⟩ hn
        have hn := (List.mem_filter.mp hn).1
        refine ((Sorted.keys_toList _).filter _).nodup_flatMap
          (fun k => s.rows[k]?.map fun row => row.bucketUs) ?_ ?_
        · rintro ⟨b, keys⟩ -
          refine Std.ExtTreeSet.distinct_toList.imp ?_
          rintro a b hne rfl
          exact hne Std.ReflCmp.compare_self
        · rintro ⟨b, keys⟩ hb k hk
          obtain ⟨row, hrow, -, -, -, hplace⟩ :=
            hrow hw ht hn (List.mem_filter.mp hb).1 (Std.ExtTreeSet.mem_toList.mp hk)
          rw [hrow]
          exact congrArg some hplace
      · rintro ⟨n, buckets⟩ hn k hk
        obtain ⟨⟨b, keys⟩, hb, hk⟩ := List.mem_flatMap.mp hk
        obtain ⟨row, hrow, -, -, hplace, -⟩ := hrow hw ht (List.mem_filter.mp hn).1
          (List.mem_filter.mp hb).1 (Std.ExtTreeSet.mem_toList.mp hk)
        rw [hrow]
        exact congrArg some hplace
    · rintro ⟨t, series⟩ ht k hk
      obtain ⟨⟨n, buckets⟩, hn, hk⟩ := List.mem_flatMap.mp hk
      obtain ⟨⟨b, keys⟩, hb, hk⟩ := List.mem_flatMap.mp hk
      obtain ⟨row, hrow, -, hplace, -, -⟩ := hrow hw (List.mem_filter.mp ht).1
        (List.mem_filter.mp hn).1 (List.mem_filter.mp hb).1 (Std.ExtTreeSet.mem_toList.mp hk)
      rw [hrow]
      exact congrArg some hplace
  · rintro ⟨w, tenants⟩ hw k hk
    obtain ⟨⟨t, series⟩, ht, hk⟩ := List.mem_flatMap.mp hk
    obtain ⟨⟨n, buckets⟩, hn, hk⟩ := List.mem_flatMap.mp hk
    obtain ⟨⟨b, keys⟩, hb, hk⟩ := List.mem_flatMap.mp hk
    obtain ⟨row, hrow, hplace, -, -, -⟩ := hrow (List.mem_filter.mp hw).1 (List.mem_filter.mp ht).1
      (List.mem_filter.mp hn).1 (List.mem_filter.mp hb).1 (Std.ExtTreeSet.mem_toList.mp hk)
    rw [hrow]
    exact congrArg some hplace

theorem Agrees.sort_walk (h : Agrees s) :
    (walk selection s.index).mergeSort (fun a b => (compare a b).isLE) =
      (matching s.rows selection).map Prod.fst := by
  have hmatching : Sorted.Keys compare (matching s.rows selection) :=
    (Sorted.keys_toList s.rows).filter _
  have hkeys : ((matching s.rows selection).map Prod.fst).Pairwise fun a b => compare a b = .lt :=
    List.pairwise_map.mpr hmatching
  have hnodup : ((matching s.rows selection).map Prod.fst).Nodup := by
    refine hkeys.imp ?_
    rintro a b hlt rfl
    simp [Std.ReflCmp.compare_self] at hlt
  have hperm : (walk selection s.index).Perm ((matching s.rows selection).map Prod.fst) := by
    refine (List.perm_ext_iff_of_nodup (h.nodup_walk selection) hnodup).mpr fun k => ?_
    rw [h.mem_walk]
    simp only [matching, List.mem_map, List.mem_filter, Map.mem_toList, decide_eq_true_eq]
    constructor
    · rintro ⟨row, hrow, hm⟩
      exact ⟨(k, row), ⟨hrow, hm⟩, rfl⟩
    · rintro ⟨⟨k, row⟩, ⟨hrow, hm⟩, rfl⟩
      exact ⟨row, hrow, hm⟩
  refine @List.Perm.eq_of_pairwise _ (fun a b => (compare a b).isLE = true) _ _ ?_ ?_ ?_
    ((List.mergeSort_perm _ _).trans hperm)
  · intro a b _ _ hab hba
    exact Std.LawfulEqCmp.eq_of_compare (Std.OrientedCmp.isLE_antisymm hab hba)
  · exact List.pairwise_mergeSort (fun _ _ _ => Std.TransCmp.isLE_trans)
      (fun a b => by
        cases hab : compare a b <;> simp [Std.OrientedCmp.eq_swap (a := b) (b := a), hab]) _
  · exact hkeys.imp fun h => by simp [h]

theorem pushKey_ok {rows : Map (RollupRow F)} (hk : rows[key]? = some row)
    (hm : selection.Matches row) (hb : budget ≤ u64Max) :
    pushKey rows selection budget keys key = .ok out ↔
      selectionBytes (keys.length + 1) ≤ budget ∧ out = keys ++ [key] := by
  have hend : selection.endUs.any (· ≤ row.bucketUs) = false := by
    cases he : selection.endUs with
    | none => rfl
    | some last => simpa using hm.2.2.2.2 last he
  simp only [pushKey, hk, hend, Bool.false_eq_true, if_false, Result.ensure_bind,
    Except.ok.injEq, @eq_comm _ out]
  constructor
  · rintro ⟨-, hfits, h⟩
    exact ⟨hfits, h⟩
  · rintro ⟨hfits, h⟩
    exact ⟨hfits.trans hb, hfits, h⟩

theorem foldlM_pushKey {rows : Map (RollupRow F)} {l : List Text}
    (hl : ∀ k ∈ l, ∃ row : RollupRow F, rows[k]? = some row ∧ selection.Matches row)
    (hb : budget ≤ u64Max) (hkeys : selectionBytes keys.length ≤ budget) :
    l.foldlM (pushKey rows selection budget) keys = .ok out ↔
      selectionBytes (keys.length + l.length) ≤ budget ∧ out = keys ++ l := by
  induction l generalizing keys with
  | nil => simpa [pure, Except.pure, @eq_comm _ out] using fun _ => hkeys
  | cons k l ih =>
    obtain ⟨⟨row, hrow, hm⟩, hl⟩ := List.forall_mem_cons.mp hl
    rw [List.foldlM_cons, Result.bind_ok]
    simp only [pushKey_ok selection hrow hm hb]
    constructor
    · rintro ⟨middle, ⟨hfits, rfl⟩, hrest⟩
      obtain ⟨hall, rfl⟩ := (ih hl (by simpa using hfits)).mp hrest
      exact ⟨by simpa [Nat.add_assoc, Nat.add_comm 1] using hall, by simp⟩
    · rintro ⟨hfits, rfl⟩
      have hone : selectionBytes (keys.length + 1) ≤ budget := by
        simp only [selectionBytes, List.length_cons] at hfits ⊢
        omega
      refine ⟨_, ⟨hone, rfl⟩, (ih hl (by simpa using hone)).mpr ⟨?_, by simp⟩⟩
      simpa [Nat.add_assoc, Nat.add_comm 1] using hfits

theorem mapM_matching {rows : Map (RollupRow F)} {l : List (Text × RollupRow F)}
    (hl : ∀ p ∈ l, rows[p.1]? = some p.2) :
    (l.map Prod.fst).mapM (fun key => context rows[key]? e) = .ok (l.map Prod.snd) := by
  induction l with
  | nil => rfl
  | cons p l ih =>
    obtain ⟨hp, hl⟩ := List.forall_mem_cons.mp hl
    simp only [List.map_cons, List.mapM_cons, hp, ih hl]
    rfl

/-- A selection answers what a linear filter over the map answers, exactly when its range and its
budget allow it. -/
theorem select_exact (h : (indexing F).Reachable s) (budget : Nat)
    (hb : budget ≤ u64Max) :
    (∀ out, s.index.select s.rows selection budget = .ok out ↔
      selection.Valid ∧ selectionBytes (matching s.rows selection).length ≤ budget ∧
        out = (matching s.rows selection).map Prod.snd) ∧
    (∀ (series : Series) (selected : Option Text) (visits : List Buckets),
      visitSeries series selected (fun seen buckets => .ok (seen ++ [buckets])) visits =
        .ok (visits ++ (series.toList.filter fun p => selected.all (p.1 = ·)).map Prod.snd)) ∧
    s.index.residentBytes = s.rows.total indexEntryBytes := by
  have ha := agrees_reachable h
  refine ⟨?_, ?_, ha.bytes⟩
  · intro out
    have hwalk : ∀ k ∈ walk selection s.index,
        ∃ row : RollupRow F, s.rows[k]? = some row ∧ selection.Matches row :=
      fun k hk => (ha.mem_walk selection k).mp hk
    have hlength : (walk selection s.index).length = (matching s.rows selection).length := by
      have := congrArg List.length (ha.sort_walk selection)
      simpa using this
    have hrows : ∀ p ∈ matching s.rows selection, s.rows[p.1]? = some p.2 :=
      fun p hp => Map.mem_toList.mp (List.mem_filter.mp hp).1
    have hempty : selectionBytes ([] : List Text).length ≤ budget := by simp [selectionBytes]
    rw [select_eq, Result.ensure_bind, Result.bind_ok]
    simp only [foldlM_pushKey selection hwalk hb hempty, List.nil_append, List.length_nil,
      Nat.zero_add, hlength]
    refine and_congr_right fun _ => ?_
    constructor
    · rintro ⟨keys, ⟨hfits, rfl⟩, hout⟩
      rw [ha.sort_walk, mapM_matching hrows] at hout
      cases hout
      exact ⟨hfits, rfl⟩
    · rintro ⟨hfits, rfl⟩
      exact ⟨_, ⟨hfits, rfl⟩, by rw [ha.sort_walk, mapM_matching hrows]⟩
  · intro series selected visits
    rw [visitSeries_eq, chosen]
    generalize series.toList.filter (fun p => selected.all (p.1 = ·)) = l
    induction l generalizing visits with
    | nil => simp [pure, Except.pure]
    | cons p l ih => simp [List.foldlM_cons, ih]

-- An inverted range, and an index of one bucket

def inverted : RollupSelection := ⟨none, none, none, some 1, some 0⟩

theorem rebuild_empty (budget : Nat) :
    RollupIndex.rebuild (∅ : Map (RollupRow F)) budget = .ok .empty :=
  rfl

theorem indexing_empty : (indexing F).Reachable ⟨∅, .empty⟩ :=
  .init ⟨by simp, 0, rebuild_empty 0⟩

/-- A linear filter over an inverted range keeps nothing; the selection refuses the range. -/
theorem inverted_range_refused :
    ∃ s : Indexed Unit, (indexing Unit).Reachable s ∧
      (matching s.rows inverted).map Prod.snd = [] ∧
      s.index.select s.rows inverted 1024 = .error "invalid rollup half-open bucket range" :=
  ⟨⟨∅, .empty⟩, indexing_empty, by simp [matching],
    by rw [RollupIndex.select, Result.ensure_neg (by decide), Result.error_bind]⟩

def firstHour : RollupRow Unit where
  widthUs := 3600000000
  bucketUs := 0
  tenant := "a".toList
  series := "s".toList
  tags := ∅
  count := 1
  sum := ()
  min := ()
  max := ()
  first := ()
  last := ()
  firstTimestampUs := 5
  firstSequence := 1
  firstOrdinal := 0
  lastTimestampUs := 5
  lastSequence := 1
  lastOrdinal := 0

def hourly : RollupSelection := ⟨some "a".toList, none, some 3600000000, some 0, none⟩

theorem select_exact_hourly :
    ∃ s : Indexed Unit, (indexing Unit).Reachable s ∧ 1024 ≤ u64Max ∧
      s.index.select s.rows hourly 1024 = .ok [firstHour] := by
  have hnew : canonicalKey firstHour ∉ RollupIndex.empty.keysAt (rollupBucket firstHour) := by
    simp [RollupIndex.keysAt, RollupIndex.empty]
  have hinsert : RollupIndex.empty.insert (canonicalKey firstHour) firstHour 4096 =
      .ok ⟨RollupIndex.empty.enter (canonicalKey firstHour) firstHour,
        0 + indexEntryBytes (canonicalKey firstHour) firstHour⟩ := by
    rw [RollupIndex.insert, Result.ensure_pos rfl, Result.ok_bind, if_neg hnew,
      Result.ensure_pos (by decide +kernel), Result.ok_bind, Result.ensure_pos (by decide +kernel),
      Result.ok_bind]
    rfl
  have hs : (indexing Unit).Reachable
      ⟨(∅ : Map (RollupRow Unit)).insert (canonicalKey firstHour) firstHour,
        ⟨RollupIndex.empty.enter (canonicalKey firstHour) firstHour,
          0 + indexEntryBytes (canonicalKey firstHour) firstHour⟩⟩ :=
    indexing_empty.step (a := (canonicalKey firstHour, firstHour, 4096))
      ⟨⟨by decide, by decide, by decide, by decide⟩, hinsert, rfl⟩
  have hone : ((∅ : Map (RollupRow Unit)).insert (canonicalKey firstHour) firstHour).toList =
      [(canonicalKey firstHour, firstHour)] := by
    refine Sorted.toList_eq_iff.mpr ⟨List.pairwise_singleton _ _, fun k v => ?_⟩
    rw [Map.lookup_insert]
    by_cases hk : canonicalKey firstHour = k
    · simp [hk, eq_comm]
    · simp [hk, Ne.symm hk]
  have hmatching : matching ((∅ : Map (RollupRow Unit)).insert (canonicalKey firstHour) firstHour)
      hourly = [(canonicalKey firstHour, firstHour)] := by
    rw [matching, hone]
    rfl
  refine ⟨_, hs, by decide, ((select_exact hourly hs 1024 (by decide)).1 _).mpr ⟨?_, ?_, ?_⟩⟩
  · decide
  · rw [hmatching]
    decide
  · rw [hmatching]
    rfl

end

end Varve.Rollup
