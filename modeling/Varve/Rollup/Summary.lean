import Varve.Lib.JsonRead
import Varve.Rollup.Source

/-!
# What a rollup says about rows

The figures of a bucket as facts about the rows in it, in no particular order, and the one way the
engine changes a bucket.
-/

namespace Varve.Rollup

open Engine
open Result (ensure_bind)

structure Bucket where
  widthUs : Int
  startUs : Int
  tenant : Text
  series : Text
  tags : Map Text
deriving DecidableEq

def Bucket.key (b : Bucket) : Text := rollupKey b.widthUs b.startUs b.tenant b.series b.tags

theorem Bucket.key_injective {b c : Bucket} (h : b.key = c.key) : b = c := by
  obtain ⟨bw, bs, bt, bn, bg⟩ := b
  obtain ⟨cw, cs, ct, cn, cg⟩ := c
  simp only [key, rollupKey, Json.array, List.intersperse_cons_cons, List.intersperse_singleton,
    List.flatten_cons, List.flatten_nil, List.cons_append, List.nil_append, List.append_assoc,
    List.append_nil, List.cons.injEq, true_and] at h
  obtain ⟨hw, h⟩ := Json.int_append_inj h
  obtain ⟨hs, h⟩ := Json.int_append_inj h
  obtain ⟨ht, h⟩ := Json.string_append_inj h
  simp only [List.cons.injEq, true_and] at h
  obtain ⟨hn, h⟩ := Json.string_append_inj h
  simp only [Map.json, Json.object, List.map_map, List.cons.injEq, true_and, List.cons_append,
    List.append_assoc, List.nil_append] at h
  obtain ⟨hl, -⟩ := Json.strings_append_inj (by decide) (by decide) h
  have htags : bg = cg := Std.ExtTreeMap.ext_getElem? fun k => Option.ext fun v => by
    rw [← Map.mem_toList (p := (k, v)), ← Map.mem_toList (p := (k, v)), hl]
  rw [hw, hs, ht, hn, htags]

variable {F : Type}

/-- The bucket of width `w` that a row falls in. -/
def bucketOf (w : Int) (row : Row F) : Bucket :=
  ⟨w, row.timestampUs / w * w, row.tenant, row.series, row.tags⟩

def rollupBucket (agg : RollupRow F) : Bucket :=
  ⟨agg.widthUs, agg.bucketUs, agg.tenant, agg.series, agg.tags⟩

def Bucket.rows (b : Bucket) (l : List (StoredRow F)) : List (StoredRow F) :=
  l.filter fun r => bucketOf b.widthUs r.row = b

@[simp] theorem Bucket.rows_append (b : Bucket) (l m : List (StoredRow F)) :
    b.rows (l ++ m) = b.rows l ++ b.rows m :=
  List.filter_append ..

theorem Bucket.mem_rows {b : Bucket} {l : List (StoredRow F)} {r : StoredRow F} :
    r ∈ b.rows l ↔ r ∈ l ∧ bucketOf b.widthUs r.row = b := by
  simp [Bucket.rows]

theorem bucketOf_start_le {w : Int} (hw : 0 < w) (row : Row F) :
    (bucketOf w row).startUs ≤ row.timestampUs :=
  Int.ediv_mul_le _ hw.ne'

-- The figures of a bucket

def rowKey (r : StoredRow F) : Int × Nat × Nat := (r.row.timestampUs, r.sequence, r.ordinal)

/-- Values ordered as the operations of the engine order them. -/
structure Ordered (F : Type) [LinearOrder F] [F64 F] : Prop where
  min_eq : ∀ a b : F, F64.min a b = min a b
  max_eq : ∀ a b : F, F64.max a b = max a b
  le_iff : ∀ a b : F, F64.le a b = true ↔ a ≤ b

variable [LinearOrder F] {b : Bucket} {rows : List (StoredRow F)} {agg : RollupRow F}
  {r : StoredRow F} {o : Option (RollupRow F)}

/-- `agg` has the figures of the rows of a bucket. -/
structure Summarises (b : Bucket) (rows : List (StoredRow F)) (agg : RollupRow F) : Prop where
  bucket : rollupBucket agg = b
  count : agg.count = rows.length
  min_le : ∀ r ∈ rows, agg.min ≤ r.row.value
  min_mem : ∃ r ∈ rows, r.row.value = agg.min
  le_max : ∀ r ∈ rows, r.row.value ≤ agg.max
  max_mem : ∃ r ∈ rows, r.row.value = agg.max
  not_earlier : ∀ r ∈ rows, ¬Earlier (rowKey r) agg.firstKey
  first_mem : ∃ r ∈ rows, rowKey r = agg.firstKey ∧ r.row.value = agg.first
  not_later : ∀ r ∈ rows, ¬Earlier agg.lastKey (rowKey r)
  last_mem : ∃ r ∈ rows, rowKey r = agg.lastKey ∧ r.row.value = agg.last

/-- A bucket is stored exactly when it has rows, and then with their figures. -/
def Exact (b : Bucket) (rows : List (StoredRow F)) : Option (RollupRow F) → Prop
  | none => rows = []
  | some agg => Summarises b rows agg

theorem Exact.summarises (h : Exact b rows o) (ho : o = some agg) : Summarises b rows agg := by
  rw [ho] at h
  exact h

theorem Summarises.perm {rows rows' : List (StoredRow F)}
    (h : Summarises b rows agg) (hp : rows.Perm rows') : Summarises b rows' agg where
  bucket := h.bucket
  count := h.count.trans hp.length_eq
  min_le r hr := h.min_le r (hp.mem_iff.mpr hr)
  min_mem := by simpa only [hp.mem_iff] using h.min_mem
  le_max r hr := h.le_max r (hp.mem_iff.mpr hr)
  max_mem := by simpa only [hp.mem_iff] using h.max_mem
  not_earlier r hr := h.not_earlier r (hp.mem_iff.mpr hr)
  first_mem := by simpa only [hp.mem_iff] using h.first_mem
  not_later r hr := h.not_later r (hp.mem_iff.mpr hr)
  last_mem := by simpa only [hp.mem_iff] using h.last_mem

theorem Exact.perm {rows rows' : List (StoredRow F)}
    (h : Exact b rows o) (hp : rows.Perm rows') : Exact b rows' o := by
  cases o with
  | none =>
    cases (show rows = [] from h)
    exact hp.nil_eq.symm
  | some agg => exact Summarises.perm h hp

theorem not_earlier_trans {a b c : Int × Nat × Nat} (h : ¬Earlier a b) (h' : Earlier c b) :
    ¬Earlier a c := by
  simp only [Earlier] at *
  omega

theorem not_later_trans {a b c : Int × Nat × Nat} (h : ¬Earlier b a) (h' : Earlier b c) :
    ¬Earlier c a := by
  simp only [Earlier] at *
  omega

theorem not_earlier_self (a : Int × Nat × Nat) : ¬Earlier a a := by
  simp only [Earlier]
  omega

theorem eq_of_not_earlier {a b : Int × Nat × Nat} (h : ¬Earlier a b) (h' : ¬Earlier b a) :
    a = b := by
  obtain ⟨a1, a2, a3⟩ := a
  obtain ⟨b1, b2, b3⟩ := b
  simp only [Earlier, Prod.mk.injEq] at *
  omega

def figures (agg : RollupRow F) : Bucket × Nat × F × F × F × F :=
  (rollupBucket agg, agg.count, agg.min, agg.max, agg.first, agg.last)

theorem Summarises.figures_eq {agg agg' : RollupRow F}
    (h : Summarises b rows agg) (h' : Summarises b rows agg')
    (hd : ∀ r ∈ rows, ∀ r' ∈ rows, rowKey r = rowKey r' → r = r') : figures agg = figures agg' := by
  have hmin : agg.min = agg'.min := by
    obtain ⟨r, hr, he⟩ := h.min_mem
    obtain ⟨r', hr', he'⟩ := h'.min_mem
    exact le_antisymm (he' ▸ h.min_le r' hr') (he ▸ h'.min_le r hr)
  have hmax : agg.max = agg'.max := by
    obtain ⟨r, hr, he⟩ := h.max_mem
    obtain ⟨r', hr', he'⟩ := h'.max_mem
    exact le_antisymm (he ▸ h'.le_max r hr) (he' ▸ h.le_max r' hr')
  have hfirst : agg.first = agg'.first := by
    obtain ⟨r, hr, hk, he⟩ := h.first_mem
    obtain ⟨r', hr', hk', he'⟩ := h'.first_mem
    have := hd r hr r' hr'
      (eq_of_not_earlier (hk' ▸ h'.not_earlier r hr) (hk ▸ h.not_earlier r' hr'))
    rw [← he, ← he', this]
  have hlast : agg.last = agg'.last := by
    obtain ⟨r, hr, hk, he⟩ := h.last_mem
    obtain ⟨r', hr', hk', he'⟩ := h'.last_mem
    have := hd r hr r' hr' (eq_of_not_earlier (hk ▸ h.not_later r' hr') (hk' ▸ h'.not_later r hr))
    rw [← he, ← he', this]
  simp only [figures, h.bucket, h'.bucket, h.count, h'.count, hmin, hmax, hfirst, hlast]

theorem Exact.figures_eq {o o' : Option (RollupRow F)}
    (h : Exact b rows o) (h' : Exact b rows o')
    (hd : ∀ r ∈ rows, ∀ r' ∈ rows, rowKey r = rowKey r' → r = r') :
    o.map figures = o'.map figures := by
  cases o with
  | none =>
    cases o' with
    | none => rfl
    | some agg' =>
      obtain ⟨r, hr, -⟩ := Summarises.min_mem h'
      simp [show rows = [] from h] at hr
  | some agg =>
    cases o' with
    | none =>
      obtain ⟨r, hr, -⟩ := Summarises.min_mem h
      simp [show rows = [] from h'] at hr
    | some agg' => simp [Summarises.figures_eq h h' hd]

-- Merging a row

variable [F64 F]

/-- What both `aggregate_updates` and `aggregate_width` do to a bucket. -/
def merge (w : Int) (o : Option (RollupRow F)) (r : StoredRow F) : Except String (RollupRow F) :=
  match o with
  | some agg => agg.add r
  | none => .ok (RollupRow.single w (r.row.timestampUs / w * w) r.row r.sequence r.ordinal)

omit [LinearOrder F] in
theorem add_ok {agg agg' : RollupRow F} (h : agg.add r = .ok agg') :
    F64.isFinite (F64.add agg.sum r.row.value) = true ∧
    rollupBucket agg' = rollupBucket agg ∧ agg'.count = agg.count + 1 ∧
    agg'.sum = F64.add agg.sum r.row.value ∧ agg'.min = F64.min agg.min r.row.value ∧
    agg'.max = F64.max agg.max r.row.value ∧
    (agg'.firstKey, agg'.first) = (if Earlier (rowKey r) agg.firstKey then (rowKey r, r.row.value)
      else (agg.firstKey, agg.first)) ∧
    (agg'.lastKey, agg'.last) = (if Earlier agg.lastKey (rowKey r) then (rowKey r, r.row.value)
      else (agg.lastKey, agg.last)) := by
  simp only [RollupRow.add, RollupRow.addBorrowedRollup, ensure_bind, Except.ok.injEq] at h
  obtain ⟨hs, -, rfl⟩ := h
  refine ⟨hs, ?_⟩
  simp only [show (r.row.timestampUs, r.sequence, r.ordinal) = rowKey r from rfl]
  split_ifs <;> simp [rollupBucket, RollupRow.firstKey, RollupRow.lastKey, rowKey]

omit [F64 F] in
theorem summarises_single (w : Int) (r : StoredRow F) :
    Summarises (bucketOf w r.row) [r]
      (RollupRow.single w (r.row.timestampUs / w * w) r.row r.sequence r.ordinal) := by
  constructor <;> simp [RollupRow.single, rollupBucket, bucketOf, RollupRow.firstKey,
    RollupRow.lastKey, rowKey, not_earlier_self]

theorem Summarises.add (hF : Ordered F)
    {agg agg' : RollupRow F} (h : Summarises b rows agg)
    (ha : agg.add r = .ok agg') : Summarises b (rows ++ [r]) agg' := by
  obtain ⟨-, hb, hc, -, hmin, hmax, hf, hl⟩ := add_ok ha
  rw [hF.min_eq] at hmin
  rw [hF.max_eq] at hmax
  obtain ⟨rmin, hrmin, hvmin⟩ := h.min_mem
  obtain ⟨rmax, hrmax, hvmax⟩ := h.max_mem
  obtain ⟨rf, hrf, hkf, hvf⟩ := h.first_mem
  obtain ⟨rl, hrl, hkl, hvl⟩ := h.last_mem
  have hfirst : (∀ x ∈ rows ++ [r], ¬Earlier (rowKey x) agg'.firstKey) ∧
      ∃ x ∈ rows ++ [r], rowKey x = agg'.firstKey ∧ x.row.value = agg'.first := by
    by_cases he : Earlier (rowKey r) agg.firstKey
    · obtain ⟨hk, hv⟩ := Prod.mk.inj (hf.trans (if_pos he))
      refine ⟨?_, r, by simp, hk.symm, hv.symm⟩
      rw [hk]
      simp only [List.forall_mem_append, List.forall_mem_singleton]
      exact ⟨fun x hx => not_earlier_trans (h.not_earlier x hx) he, not_earlier_self _⟩
    · obtain ⟨hk, hv⟩ := Prod.mk.inj (hf.trans (if_neg he))
      refine ⟨?_, rf, by simp [hrf], hkf.trans hk.symm, hvf.trans hv.symm⟩
      rw [hk]
      simp only [List.forall_mem_append, List.forall_mem_singleton]
      exact ⟨h.not_earlier, he⟩
  have hlast : (∀ x ∈ rows ++ [r], ¬Earlier agg'.lastKey (rowKey x)) ∧
      ∃ x ∈ rows ++ [r], rowKey x = agg'.lastKey ∧ x.row.value = agg'.last := by
    by_cases he : Earlier agg.lastKey (rowKey r)
    · obtain ⟨hk, hv⟩ := Prod.mk.inj (hl.trans (if_pos he))
      refine ⟨?_, r, by simp, hk.symm, hv.symm⟩
      rw [hk]
      simp only [List.forall_mem_append, List.forall_mem_singleton]
      exact ⟨fun x hx => not_later_trans (h.not_later x hx) he, not_earlier_self _⟩
    · obtain ⟨hk, hv⟩ := Prod.mk.inj (hl.trans (if_neg he))
      refine ⟨?_, rl, by simp [hrl], hkl.trans hk.symm, hvl.trans hv.symm⟩
      rw [hk]
      simp only [List.forall_mem_append, List.forall_mem_singleton]
      exact ⟨h.not_later, he⟩
  refine ⟨hb.trans h.bucket, by simp [hc, h.count], ?_, ?_, ?_, ?_, hfirst.1, hfirst.2,
    hlast.1, hlast.2⟩
  · simp only [List.forall_mem_append, List.forall_mem_singleton, hmin]
    exact ⟨fun x hx => (min_le_left _ _).trans (h.min_le x hx), min_le_right _ _⟩
  · rcases min_choice agg.min r.row.value with he | he
    · exact ⟨rmin, by simp [hrmin], by rw [hmin, he, hvmin]⟩
    · exact ⟨r, by simp, by rw [hmin, he]⟩
  · simp only [List.forall_mem_append, List.forall_mem_singleton, hmax]
    exact ⟨fun x hx => (h.le_max x hx).trans (le_max_left _ _), le_max_right _ _⟩
  · rcases max_choice agg.max r.row.value with he | he
    · exact ⟨rmax, by simp [hrmax], by rw [hmax, he, hvmax]⟩
    · exact ⟨r, by simp, by rw [hmax, he]⟩

theorem Exact.merge (hF : Ordered F) {w : Int}
    (h : Exact (bucketOf w r.row) rows o) (hm : Rollup.merge w o r = .ok agg) :
    Exact (bucketOf w r.row) (rows ++ [r]) (some agg) := by
  cases o with
  | none =>
    cases (show rows = [] from h)
    simp only [Rollup.merge, Except.ok.injEq] at hm
    rw [← hm]
    exact summarises_single w r
  | some old => exact Summarises.add hF h hm

-- Stored rollups

structure Admitted (r : StoredRow F) : Prop where
  valid : r.row.validate = .ok ()
  sequence : 0 < r.sequence

/-- A rollup built by merging admitted rows of its bucket, under its own key. -/
structure Built (key : Text) (agg : RollupRow F) : Prop where
  key_eq : key = (rollupBucket agg).key
  width : 0 < agg.widthUs
  start : i64Min ≤ agg.bucketUs
  sum : F64.isFinite agg.sum = true
  rows : ∃ rows : List (StoredRow F), Summarises (rollupBucket agg) rows agg ∧
    ∀ r ∈ rows, bucketOf agg.widthUs r.row = rollupBucket agg ∧ Admitted r

omit [LinearOrder F] in
theorem Admitted.finite (h : Admitted r) : F64.isFinite r.row.value = true := by
  have := h.valid
  simp only [Row.validate, ensure_bind] at this
  exact this.1

omit [LinearOrder F] in
theorem Admitted.dimensions (h : Admitted r) :
    validateDimensions r.row.tenant r.row.series r.row.tags = .ok () := by
  have := h.valid
  simp only [Row.validate, ensure_bind] at this
  exact this.2

theorem Built.merge (hF : Ordered F) {w : Int}
    (h : ∀ old, o = some old → Built (bucketOf w r.row).key old)
    (hw : 0 < w) (hs : i64Min ≤ (bucketOf w r.row).startUs) (hr : Admitted r)
    (hm : Rollup.merge w o r = .ok agg) : Built (bucketOf w r.row).key agg := by
  cases o with
  | none =>
    simp only [Rollup.merge, Except.ok.injEq] at hm
    subst hm
    exact ⟨rfl, hw, hs, hr.finite, [r], summarises_single w r, by simp [bucketOf, rollupBucket,
      RollupRow.single, hr]⟩
  | some old =>
    obtain ⟨hk, hw', hs', -, rows, hsum, hrows⟩ := h old rfl
    obtain ⟨hf, hb, -, hsum', -⟩ := add_ok hm
    have hold : bucketOf w r.row = rollupBucket old := Bucket.key_injective hk
    have hwidth : agg.widthUs = old.widthUs := congrArg Bucket.widthUs hb
    have hstart : agg.bucketUs = old.bucketUs := congrArg Bucket.startUs hb
    have howner : old.widthUs = w := (congrArg Bucket.widthUs hold).symm
    refine ⟨by rw [hb, hk], hwidth ▸ hw', hstart ▸ hs', hsum' ▸ hf, rows ++ [r], ?_, ?_⟩
    · rw [hb]
      exact hsum.add hF hm
    · rw [hb, hwidth]
      simp only [List.forall_mem_append, List.forall_mem_singleton]
      exact ⟨hrows, by rw [howner, hold], hr⟩

omit [LinearOrder F] [F64 F] in
theorem windowStart_eq {ts w : Int} (hw : 0 < w) (hs : i64Min ≤ ts / w * w) :
    windowStart ts w = .ok (ts / w * w) := by
  simp [windowStart, hw, hs]

theorem Built.validate (hF : Ordered F) {key : Text} (h : Built key agg) :
    validateRollup key agg = .ok () := by
  obtain ⟨hk, hw, hs, hsum, rows, hr, hrows⟩ := h
  obtain ⟨rmin, hrmin, hvmin⟩ := hr.min_mem
  obtain ⟨rmax, hrmax, hvmax⟩ := hr.max_mem
  obtain ⟨rf, hrf, hkf, hvf⟩ := hr.first_mem
  obtain ⟨rl, hrl, hkl, hvl⟩ := hr.last_mem
  -- every row of the bucket starts where the bucket does
  have hstart : ∀ r ∈ rows, r.row.timestampUs / agg.widthUs * agg.widthUs = agg.bucketUs :=
    fun r hx => congrArg Bucket.startUs (hrows r hx).1
  have hwin : ∀ r ∈ rows, windowStart r.row.timestampUs agg.widthUs = .ok agg.bucketUs := by
    intro r hx
    rw [windowStart_eq hw (by rw [hstart r hx]; exact hs), hstart r hx]
  have hself : windowStart agg.bucketUs agg.widthUs = .ok agg.bucketUs := by
    have he : agg.bucketUs / agg.widthUs * agg.widthUs = agg.bucketUs := by
      rw [← hstart rf hrf, Int.mul_ediv_cancel _ hw.ne']
    rw [windowStart_eq hw (by rw [he]; exact hs), he]
  have hfts : agg.firstTimestampUs = rf.row.timestampUs := (congrArg Prod.fst hkf).symm
  have hlts : agg.lastTimestampUs = rl.row.timestampUs := (congrArg Prod.fst hkl).symm
  have hfseq : agg.firstSequence = rf.sequence := (congrArg (·.2.1) hkf).symm
  have hlseq : agg.lastSequence = rl.sequence := (congrArg (·.2.1) hkl).symm
  have hdim : validateDimensions agg.tenant agg.series agg.tags = .ok () := by
    have hb := (hrows rf hrf).1
    have ht : rf.row.tenant = agg.tenant := congrArg Bucket.tenant hb
    have hn : rf.row.series = agg.series := congrArg Bucket.series hb
    have hg : rf.row.tags = agg.tags := congrArg Bucket.tags hb
    rw [← ht, ← hn, ← hg]
    exact (hrows rf hrf).2.dimensions
  have hcount : 0 < agg.count := by
    rw [hr.count]
    exact List.length_pos_of_mem hrf
  have hfin : [agg.sum, agg.min, agg.max, agg.first, agg.last].all F64.isFinite = true := by
    simp [hsum, ← hvmin, ← hvmax, ← hvf, ← hvl, (hrows _ hrmin).2.finite, (hrows _ hrmax).2.finite,
      (hrows _ hrf).2.finite, (hrows _ hrl).2.finite]
  have hties : ¬Earlier agg.lastKey agg.firstKey := by
    rw [← hkl]
    exact hr.not_earlier rl hrl
  have hext : F64.le agg.min agg.max ∧ F64.le agg.min agg.first ∧ F64.le agg.first agg.max ∧
      F64.le agg.min agg.last ∧ F64.le agg.last agg.max := by
    simp only [hF.le_iff, ← hvf, ← hvl]
    exact ⟨(hr.min_le rf hrf).trans (hr.le_max rf hrf), hr.min_le rf hrf, hr.le_max rf hrf,
      hr.min_le rl hrl, hr.le_max rl hrl⟩
  have hcanon : key = canonicalKey agg := hk
  simp only [validateRollup, hdim, Result.ok_bind, Result.ensure_pos hcanon, Result.ensure_pos hw,
    hself, Result.ensure_pos (And.intro hcount hfin), Result.ensure_pos hext, hfts, hlts,
    hwin rf hrf, hwin rl hrl]
  simp [hties, hfseq, hlseq, (hrows rf hrf).2.sequence, (hrows rl hrl).2.sequence]

end Varve.Rollup
