import Varve.Store.Compaction

/-!
# Retention

A retention that is published leaves the rows and rollups above its new cutoffs and no others, and
what it let go stays away.
-/

namespace Varve.Store

open Engine
open Result (bind_ok ensure_bind ensure_ok)
open Rollup (above nextCutoff)

variable {F : Type} [F64 F] [DecidableEq F] {config : Config F} {d d' : Db F}
variable {nowUs : Int} {t t' : Table F} {name : Text}

-- Rollups above the cutoff

def Unexpired (cutoff : Option Int) (row : RollupRow F) : Prop :=
  ∀ c ∈ cutoff, c < saturatingAdd row.bucketUs row.widthUs

structure Expiry (t : Table F) : Prop where
  age : ∀ age ∈ t.config.rollupRetentionUs, 0 < age
  cutoff : ∀ c ∈ t.rollupCutoffUs, i64Min ≤ c ∧ c < i64Max
  rollups : ∀ (key : Text) (row : RollupRow F), t.rollups[key]? = some row →
    Unexpired t.rollupCutoffUs row

omit [F64 F] [DecidableEq F] in
theorem unexpired_union {cutoff : Option Int} {a b : Map (RollupRow F)}
    (ha : ∀ (key : Text) (row : RollupRow F), a[key]? = some row → Unexpired cutoff row)
    (hb : ∀ (key : Text) (row : RollupRow F), b[key]? = some row → Unexpired cutoff row) :
    ∀ (key : Text) (row : RollupRow F), (a ∪ b)[key]? = some row → Unexpired cutoff row := by
  intro key row hr
  rw [Std.ExtTreeMap.getElem?_union] at hr
  rcases Option.or_eq_some_iff.mp hr with hr | ⟨-, hr⟩
  · exact hb key row hr
  · exact ha key row hr

theorem foldlM_keeps {α β : Type} {P : β → Prop} {f : β → α → Except String β} {l : List α}
    {b b' : β} (hf : ∀ b a b', P b → f b a = .ok b' → P b') (hb : P b)
    (h : l.foldlM f b = .ok b') : P b' := by
  induction l generalizing b with
  | nil =>
    cases h
    exact hb
  | cons a l ih =>
    obtain ⟨mid, hm, h⟩ := bind_ok.mp h
    exact ih (hf b a mid hb hm) h

section
omit [DecidableEq F]

theorem addBorrowedRollup_bucket {agg agg' : RollupRow F} {row : Row F} {sequence ordinal : Nat}
    (h : agg.addBorrowedRollup row sequence ordinal = .ok agg') :
    agg'.bucketUs = agg.bucketUs ∧ agg'.widthUs = agg.widthUs := by
  obtain ⟨-, h⟩ := ensure_bind.mp h
  obtain ⟨-, h⟩ := ensure_bind.mp h
  cases h
  split_ifs <;> exact ⟨rfl, rfl⟩

theorem updateWidth_unexpired {row : Row F} {sequence ordinal byteBudget : Nat}
    {u u' : Rollup.Updates F} {width : Int} (ht : Expiry t)
    (hu : ∀ (key : Text) (row : RollupRow F), u.rows[key]? = some row →
      Unexpired t.rollupCutoffUs row)
    (h : Rollup.updateWidth t row sequence ordinal byteBudget (t.rollups[·]?) u width = .ok u') :
    ∀ (key : Text) (row : RollupRow F), u'.rows[key]? = some row →
      Unexpired t.rollupCutoffUs row := by
  obtain ⟨bucket, -, h⟩ := bind_ok.mp h
  split at h
  · cases h
    exact hu
  · next hcut =>
    simp only [ensure_bind] at h
    obtain ⟨-, h⟩ := h
    have hnew : ∃ key agg, Unexpired t.rollupCutoffUs agg ∧ u'.rows = u.rows.insert key agg := by
      split at h
      next old hold =>
        obtain ⟨agg, hagg, h⟩ := bind_ok.mp h
        cases h
        obtain ⟨hb, hw⟩ := addBorrowedRollup_bucket hagg
        refine ⟨_, agg, fun c hc => ?_, rfl⟩
        rw [hb, hw]
        rcases Option.or_eq_some_iff.mp hold with hold | ⟨-, hold⟩
        · exact hu _ old hold c hc
        · exact ht.rollups _ old hold c hc
      next =>
        obtain ⟨agg, hagg, h⟩ := bind_ok.mp h
        cases h
        cases hagg
        refine ⟨_, _, fun c hc => not_le.mp fun hle => hcut ⟨c, hc, ?_⟩, rfl⟩
        simpa only [RollupRow.single] using hle
    obtain ⟨key', agg, hagg, hrows⟩ := hnew
    intro key r hr
    rw [hrows, Map.lookup_insert] at hr
    split at hr
    · cases hr
      exact hagg
    · exact hu key r hr

theorem expiry_addRows {limits : Rollup.Limits} {sequence ordinal : Nat} {rows : List (Row F)}
    (ht : Expiry t) (h : addRows limits sequence ordinal rows t = .ok t') :
    Expiry t' := by
  obtain ⟨-, -, h⟩ := bind_ok.mp h
  obtain ⟨updates, hu, h⟩ := bind_ok.mp h
  cases h
  obtain ⟨u, hfold, hu⟩ := bind_ok.mp hu
  cases hu
  refine ⟨ht.age, ht.cutoff, unexpired_union ht.rollups ?_⟩
  refine foldlM_keeps (P := fun u : Rollup.Updates F => ∀ (key : Text) (row : RollupRow F),
    u.rows[key]? = some row → Unexpired t.rollupCutoffUs row) (fun u p u' hu hp => ?_) ?_ hfold
  · exact foldlM_keeps (fun u w u' hu hw => updateWidth_unexpired ht hu hw) hu hp
  · intro key row hr
    simp at hr

end

section
omit [F64 F] [DecidableEq F]

theorem expiry_setPolicy {policy : LifecyclePolicy} (ht : Expiry t)
    (h : Rollup.setPolicy policy t = .ok t') : Expiry t' := by
  obtain ⟨hage, -, hr, -, hc⟩ := Rollup.setPolicy_ok h
  exact ⟨hage, hc ▸ ht.cutoff, by rw [hr, hc]; exact ht.rollups⟩

theorem expiry_activate {width : Int} {backfill : Map (RollupRow F)}
    (ht : Expiry t) (hb : ∀ (key : Text) (row : RollupRow F), backfill[key]? = some row →
      Unexpired t.rollupCutoffUs row)
    (h : Rollup.activate width backfill t = .ok t') : Expiry t' := by
  obtain ⟨c, hc, h⟩ := bind_ok.mp h
  obtain ⟨-, h⟩ := ensure_bind.mp h
  cases h
  have hage : c.rollupRetentionUs = t.config.rollupRetentionUs := by
    unfold Rollup.activateWidth at hc
    split at hc
    · cases hc
      rfl
    · obtain ⟨-, hc⟩ := ensure_bind.mp hc
      cases hc
      rfl
  exact ⟨hage ▸ ht.age, ht.cutoff, unexpired_union ht.rollups hb⟩

theorem expiry_dropWidth {aggregate : ContinuousAggregate} {aggregates : Map ContinuousAggregate}
    (ht : Expiry t) (h : dropWidth aggregate aggregates t = .ok t') :
    Expiry t' := by
  cases h
  unfold Rollup.deactivate
  split
  · refine ⟨ht.age, ht.cutoff, fun key row hr => ?_⟩
    rw [Std.ExtTreeMap.getElem?_filter'] at hr
    exact ht.rollups key row (Option.filter_eq_some_iff.mp hr).1
  · exact ht

end

def LiveExpiry (s : Live F) : Prop :=
  ∀ (name : Text) (t : Table F), s.catalog.tables[name]? = some t → Expiry t

omit [F64 F] [DecidableEq F] in
theorem expiry_modifyTable {missing : String}
    {f : Table F → Except String (Table F)} {c c' : Manifest F}
    (hc : ∀ (name : Text) (t : Table F), c.tables[name]? = some t → Expiry t)
    (hf : ∀ t t', c.tables[name]? = some t → Expiry t → f t = .ok t' → Expiry t')
    (h : modifyTable name missing f c = .ok c') :
    ∀ (name : Text) (t : Table F), c'.tables[name]? = some t → Expiry t := by
  obtain ⟨t, t', ht, hft, rfl⟩ := modifyTable_ok h
  intro name' u hu
  rw [Map.lookup_insert] at hu
  split at hu
  · cases hu
    exact hf t _ ht (hc name t ht) hft
  · exact hc name' u hu

omit [DecidableEq F] in
theorem expiry_appendItems {limits : Rollup.Limits} {sequence ordinal : Nat}
    {items : List (Rollup.AppendItem F)} {s s' : Live F} (hs : LiveExpiry s)
    (h : appendItems limits sequence ordinal items s = .ok s') : LiveExpiry s' := by
  induction items generalizing ordinal s with
  | nil =>
    cases h
    exact hs
  | cons item items ih =>
    obtain ⟨-, h⟩ := ensure_bind.mp h
    obtain ⟨catalog, hc, h⟩ := bind_ok.mp h
    exact ih (expiry_modifyTable hs (fun t t' _ ht hf => expiry_addRows ht hf) hc) h

/-- A record whose backfill, if it has one, is above the rollup cutoff of its table. -/
def Operation.Fresh (s : Live F) : Operation F → Prop
  | .createContinuousAggregate aggregate backfill => s.outlived aggregate.source backfill = false
  | _ => True

omit [F64 F] [DecidableEq F] in
theorem unexpired_of_not_outlived {s : Live F} {source : Text} {rollups : Map (RollupRow F)}
    (h : s.outlived source rollups = false)
    (ht : s.catalog.tables[source]? = some t) :
    ∀ (key : Text) (row : RollupRow F), rollups[key]? = some row →
      Unexpired t.rollupCutoffUs row := by
  intro key row hr c hc
  rw [Live.outlived, ht, Option.bind_some, Option.mem_def.mp hc] at h
  simp only [Option.any_some, List.any_eq_false, decide_eq_true_eq] at h
  exact not_le.mp (h (key, row) (Map.mem_toList.mpr hr))

omit [DecidableEq F] in
theorem expiry_applyRecord {limits : Rollup.Limits} {s s' : Live F} {o : Operation F}
    (hs : LiveExpiry s) (ho : o.Fresh s) (h : applyRecord limits s o = .ok s') :
    LiveExpiry s' := by
  obtain ⟨mid, hm, h⟩ := bind_ok.mp h
  cases h
  cases o with
  | createTable name config =>
    obtain ⟨-, -, hm⟩ := bind_ok.mp hm
    obtain ⟨⟨⟩, hc, hm⟩ := bind_ok.mp hm
    obtain ⟨-, hm⟩ := ensure_bind.mp hm
    cases hm
    simp only [TableConfig.validate, ensure_bind, validateDurations, ensure_ok] at hc
    obtain ⟨-, -, hages, -⟩ := hc
    intro name' t ht
    rw [Map.lookup_insert] at ht
    split at ht
    · cases ht
      refine ⟨fun age ha => hages age ?_, by simp [emptyTable], fun key row hr => ?_⟩
      · have : config.rollupRetentionUs = some age := ha
        simp [this]
      · simp [emptyTable] at hr
    · exact hs name' t ht
  | append items => exact fun name t ht => expiry_appendItems hs hm name t ht
  | setPolicy table policy =>
    obtain ⟨c, hc, hm⟩ := bind_ok.mp hm
    cases hm
    exact fun name u hu =>
      expiry_modifyTable hs (fun t t' _ ht hf => expiry_setPolicy ht hf) hc name u hu
  | createContinuousAggregate aggregate backfill =>
    obtain ⟨-, -, hm⟩ := bind_ok.mp hm
    obtain ⟨-, hm⟩ := ensure_bind.mp hm
    obtain ⟨-, hm⟩ := ensure_bind.mp hm
    obtain ⟨-, hm⟩ := ensure_bind.mp hm
    obtain ⟨c, hc, hm⟩ := bind_ok.mp hm
    cases hm
    exact fun name u hu => expiry_modifyTable hs (fun t t' hl ht hf =>
      expiry_activate ht (unexpired_of_not_outlived ho hl) hf) hc name u hu
  | dropContinuousAggregate name =>
    obtain ⟨aggregate, -, hm⟩ := bind_ok.mp hm
    obtain ⟨c, hc, hm⟩ := bind_ok.mp hm
    cases hm
    exact fun name u hu =>
      expiry_modifyTable hs (fun t t' _ ht hf => expiry_dropWidth ht hf) hc name u hu
  | other =>
    cases hm
    exact hs

theorem nextCutoff_bounds {age cutoff : Option Int} (hnow : nowUs ≤ i64Max)
    (hage : ∀ a ∈ age, 0 < a) (hc : ∀ c ∈ cutoff, i64Min ≤ c ∧ c < i64Max) :
    ∀ c ∈ nextCutoff nowUs age cutoff, i64Min ≤ c ∧ c < i64Max := by
  intro c hm
  refine ⟨?_, Rollup.nextCutoff_lt hnow hage (fun c hc' => (hc c hc').2) c hm⟩
  cases age with
  | none => exact (hc c hm).1
  | some age =>
    obtain rfl := Option.some.inj hm
    refine le_max_of_le_left ?_
    simp only [checkedCutoff, saturatingSub, clamp]
    exact le_max_left _ _

section
omit [F64 F] [DecidableEq F]

theorem lt_saturatingAdd_iff {c a b : Int} (hc : i64Min ≤ c ∧ c < i64Max) :
    c < saturatingAdd a b ↔ c < a + b := by
  simp only [saturatingAdd, clamp, lt_max_iff, lt_min_iff]
  omega

theorem mem_keepRollups {key : Text} {row : RollupRow F} :
    (keepRollups nowUs t)[key]? = some row ↔ t.rollups[key]? = some row ∧
      (t.config.rollupRetentionUs.isSome = true →
        Unexpired (nextCutoff nowUs t.config.rollupRetentionUs t.rollupCutoffUs) row) := by
  unfold keepRollups
  cases hage : t.config.rollupRetentionUs with
  | none => simp
  | some age =>
    simp [Option.filter_eq_some_iff, Unexpired, nextCutoff]

theorem expiry_retain {files files' : Files F}
    (hnow : nowUs ≤ i64Max) (ht : Expiry t) (h : RetainedAs nowUs files files' t t') :
    Expiry t' := by
  have htab := h.table
  rw [htab]
  refine ⟨ht.age, nextCutoff_bounds hnow ht.age ht.cutoff, fun key row hr => ?_⟩
  obtain ⟨hold, hnew⟩ := mem_keepRollups.mp hr
  cases hage : t.config.rollupRetentionUs with
  | none =>
    have hsame : nextCutoff nowUs none t.rollupCutoffUs = t.rollupCutoffUs := rfl
    simp only [hsame]
    exact ht.rollups key row hold
  | some age =>
    have := hnew (by simp [hage])
    rwa [hage] at this

end

-- Steps

/-- The machine in which no aggregate is created from expired rollups. -/
def lasting (config : Config F) : Machine (Db F) Label :=
  (machine config).restrict fun _ l => l ≠ .create true

theorem expiry_step (h : Inv config d) (he : LiveExpiry d.live) {l : Label}
    (hl : l ≠ .create true) (hs : Step config d l d') : LiveExpiry d'.live := by
  cases hs with
  | @commit o s ho ha =>
    refine expiry_applyRecord he ?_ ha
    cases o <;> trivial
  | @create b rollups s hb hr hseq ha =>
    have hfresh : (b.operation (d.live.sequence + 1) rollups).Fresh d.live :=
      (by simpa using hl : d.live.outlived b.source rollups = false)
    exact expiry_applyRecord he hfresh ha
  | checkpoint n hs hw hv =>
    intro name t ht
    obtain ⟨u, hu, rfl⟩ := Option.map_eq_some_iff.mp (installCatalog_lookup.symm.trans ht)
    obtain ⟨hage, hcut, hrows⟩ := he name u hu
    exact ⟨hage, hcut, hrows⟩
  | @retain a nowUs hnow _ hc ha _ hv =>
    obtain ⟨-, hall, hnone, -⟩ := retainTables_ok
      (fun name t ht => (h.live.tables name t ht).sound) ha
    intro name t' ht'
    replace ht' : a.tables[name]? = some t' := ht'
    cases ht : d.live.catalog.tables[name]? with
    | none =>
      rw [hnone name ht] at ht'
      cases ht'
    | some t =>
      obtain ⟨t₂, ht₂, hr⟩ := hall name t ht
      obtain rfl := Option.some.inj (ht₂.symm.trans ht')
      exact expiry_retain hnow (he name t ht) hr
  | reopen hr =>
    obtain rfl := Except.ok.inj (h.replay.symm.trans hr)
    exact he
  | publish hp hseq hc =>
    obtain ⟨-, hz, -, hcur⟩ := h.compaction _ hp
    obtain rfl := hcur rfl
    obtain ⟨t, ht, rfl⟩ := compacted_ok hz.compacted
    intro name u hu
    simp only [Db.publish, Map.lookup_insert] at hu
    split at hu
    · cases hu
      obtain ⟨hage, hcut, hrows⟩ := he _ t ht
      exact ⟨hage, hcut, hrows⟩
    · exact he name u hu
  | capture | collect | plan | write | freeze | abandon => exact he

/-- What a table keeps from one state to a later one. -/
def CutoffsGrow (d d' : Db F) : Prop :=
  ∀ (name : Text) (t : Table F), d.table name = some t → ∃ t', d'.table name = some t' ∧
    (∀ c ∈ t.cutoffUs, ∃ c' ∈ t'.cutoffUs, c ≤ c') ∧
    ∀ c ∈ t.rollupCutoffUs, ∃ c' ∈ t'.rollupCutoffUs, c ≤ c'

omit [F64 F] [DecidableEq F] in
theorem cutoffsGrow_of_eq
    (h : ∀ (name : Text) (t : Table F), d.table name = some t → ∃ t', d'.table name = some t' ∧
      t'.cutoffUs = t.cutoffUs ∧ t'.rollupCutoffUs = t.rollupCutoffUs) : CutoffsGrow d d' := by
  intro name t ht
  obtain ⟨t', ht', hc, hr⟩ := h name t ht
  exact ⟨t', ht', fun c hm => ⟨c, hc ▸ hm, le_refl c⟩, fun c hm => ⟨c, hr ▸ hm, le_refl c⟩⟩

omit [F64 F] [DecidableEq F] in
theorem CutoffsGrow.trans {a b c : Db F} (h : CutoffsGrow a b) (h' : CutoffsGrow b c) :
    CutoffsGrow a c := by
  intro name t ht
  obtain ⟨t', ht', hc, hr⟩ := h name t ht
  obtain ⟨t'', ht'', hc', hr'⟩ := h' name t' ht'
  refine ⟨t'', ht'', fun x hx => ?_, fun x hx => ?_⟩
  · obtain ⟨y, hy, hxy⟩ := hc x hx
    obtain ⟨z, hz, hyz⟩ := hc' y hy
    exact ⟨z, hz, hxy.trans hyz⟩
  · obtain ⟨y, hy, hxy⟩ := hr x hx
    obtain ⟨z, hz, hyz⟩ := hr' y hy
    exact ⟨z, hz, hxy.trans hyz⟩

omit [DecidableEq F] in
theorem cutoffsGrow_commit {o : Operation F} {s : Live F}
    (h : applyRecord config.limits d.live o = .ok s) : CutoffsGrow d (d.commit o s) := by
  obtain ⟨new, ha⟩ := applyRecord_advances h
  refine cutoffsGrow_of_eq fun name t ht => ?_
  obtain ⟨t', ht', hk⟩ := ha.grows.old name t ht
  exact ⟨t', ht', hk.cutoff, hk.rollupCutoff⟩

theorem cutoffsGrow_step (h : Inv config d) {l : Label} (hs : Step config d l d') :
    CutoffsGrow d d' := by
  cases hs with
  | commit ho ha => exact cutoffsGrow_commit ha
  | create hb hr hseq ha => exact cutoffsGrow_commit ha
  | @checkpoint s out n hs hw hv =>
    refine cutoffsGrow_of_eq fun name t ht => ⟨addSegments (out.outputs[name]?.getD []) t,
      installCatalog_lookup.trans ?_, rfl, rfl⟩
    rw [show d.live.catalog.tables[name]? = some t from ht, Option.map_some]
  | retain hnow _ hc ha _ hv =>
    obtain ⟨-, hall, -, -⟩ := retainTables_ok
      (fun name t ht => (h.live.tables name t ht).sound) ha
    intro name t ht
    obtain ⟨t', ht', hr⟩ := hall name t ht
    refine ⟨t', ht', fun c hm => ?_, fun c hm => ?_⟩
    · rw [hr.table]
      exact Rollup.nextCutoff_mono hm
    · rw [hr.table]
      exact Rollup.nextCutoff_mono hm
  | reopen hr =>
    obtain rfl := Except.ok.inj (h.replay.symm.trans hr)
    exact cutoffsGrow_of_eq fun _ t ht => ⟨t, ht, rfl, rfl⟩
  | publish hp hseq hc =>
    obtain ⟨-, hz, -, hcur⟩ := h.compaction _ hp
    obtain rfl := hcur rfl
    obtain ⟨u, hu, rfl⟩ := compacted_ok hz.compacted
    refine cutoffsGrow_of_eq fun name t ht => ?_
    simp only [Db.table, Db.publish, Map.lookup_insert]
    split
    next hname =>
      subst hname
      obtain rfl := Option.some.inj (hu.symm.trans ht)
      exact ⟨_, rfl, rfl, rfl⟩
    next => exact ⟨t, ht, rfl, rfl⟩
  | capture | collect | plan | write | freeze | abandon =>
    exact cutoffsGrow_of_eq fun _ t ht => ⟨t, ht, rfl, rfl⟩

theorem expiry_reachable (hd : (lasting config).Reachable d) :
    Inv config d ∧ LiveExpiry d.live := by
  refine hd.invariant (I := fun d => Inv config d ∧ LiveExpiry d.live)
    (fun s hs => ⟨inv_created hs, fun name t ht => ?_⟩) fun s l s' h hs => ?_
  · rw [hs.tables] at ht
    simp at ht
  · exact ⟨inv_step h.1 hs.2, expiry_step h.1 h.2 hs.1 hs.2⟩

-- Retention

structure Trimmed (d d' : Db F) (name : Text) (t t' : Table F) : Prop where
  raw : t.config.retentionUs.isSome = true → ∃ cutoff, t'.cutoffUs = some cutoff ∧
    (d'.rows name).Perm ((d.rows name).filter fun r => cutoff ≤ r.row.timestampUs)
  rollups : t.config.rollupRetentionUs.isSome = true → ∃ cutoff,
    t'.rollupCutoffUs = some cutoff ∧ ∀ (key : Text) (row : RollupRow F),
      t'.rollups[key]? = some row ↔
        t.rollups[key]? = some row ∧ cutoff < row.bucketUs + row.widthUs

def Db.rowTotal (d : Db F) : Nat :=
  Map.total (fun name _ => (d.rows name).length) d.live.catalog.tables

/-- Nothing below the cutoffs of the earlier state is there in the later one. -/
def Gone (d d' : Db F) : Prop :=
  ∀ (name : Text) (t : Table F), d.table name = some t →
    (∀ cutoff ∈ t.cutoffUs, ∀ r ∈ d'.rows name, cutoff ≤ r.row.timestampUs) ∧
    ∀ cutoff ∈ t.rollupCutoffUs, ∀ t', d'.table name = some t' →
      ∀ (key : Text) (row : RollupRow F), t'.rollups[key]? = some row →
        cutoff < row.bucketUs + row.widthUs

omit [DecidableEq F] in
theorem gone_of_grow (h : Inv config d') (he : LiveExpiry d'.live) (hg : CutoffsGrow d d') :
    Gone d d' := by
  intro name t ht
  obtain ⟨t', ht', hc, hr⟩ := hg name t ht
  refine ⟨fun cutoff hm r hrow => ?_, fun cutoff hm u hu key row hrow => ?_⟩
  · obtain ⟨c, hc', hle⟩ := hc cutoff hm
    have hinv := (h.live.tables name t' ht').rows
    rw [Db.rows, ht'] at hrow
    have habove := (List.mem_filter.mp (hinv.subset hrow)).2
    simp only [above, decide_eq_true_eq] at habove
    exact hle.trans (habove c hc')
  · obtain rfl := Option.some.inj (hu.symm.trans ht')
    obtain ⟨c, hc', hle⟩ := hr cutoff hm
    have hexp := he name u hu
    exact lt_of_le_of_lt hle ((lt_saturatingAdd_iff (hexp.cutoff c hc')).mp
      (hexp.rollups key row hrow c hc'))

theorem mem_keys {α : Type} {m : Map α} :
    name ∈ m.toList.map Prod.fst ↔ ∃ v, m[name]? = some v := by
  constructor
  · intro h
    obtain ⟨p, hp, rfl⟩ := List.mem_map.mp h
    exact ⟨p.2, Map.mem_toList.mp hp⟩
  · rintro ⟨v, hv⟩
    exact List.mem_map.mpr ⟨(name, v), Map.mem_toList.mpr hv, rfl⟩

theorem rows_trim (h : Inv config d) (hc : d.live.Checkpointed) {a : Sweep F}
    (ha : retainTables config nowUs d.live.catalog.tables d.files = .ok a)
    (ht : d.table name = some t) :
    ∃ t', (d.trim a).table name = some t' ∧ RetainedAs nowUs d.files a.files t t' ∧
      ((d.trim a).rows name).Perm (keptRows nowUs d.files t) ∧
      d.rows name = segmentRows d.files t.segments := by
  obtain ⟨-, hroot⟩ := h.settled hc
  have hhot : d.live.hot = [] := hroot ▸ h.drained
  obtain ⟨-, hall, -, -⟩ := retainTables_ok
    (fun name t ht => (h.live.tables name t ht).sound) ha
  obtain ⟨t', ht', hr⟩ := hall name t ht
  have hnew : (d.trim a).table name = some t' := ht'
  refine ⟨t', hnew, hr, ?_, ?_⟩
  · have hcut : t'.cutoffUs = nextCutoff nowUs t.config.retentionUs t.cutoffUs := by rw [hr.table]
    have hrows : (d.trim a).rows name = segmentRows a.files t'.segments := by
      rw [Db.rows, hnew]
      simp [Db.trim, Db.publish, hhot, rowsOf]
    rw [hrows, keptRows, ← hcut]
    exact hr.rows
  · rw [Db.rows, ht]
    simp [hhot, rowsOf]

theorem rowTotal_trim (h : Inv config d) (hc : d.live.Checkpointed) {a : Sweep F}
    (ha : retainTables config nowUs d.live.catalog.tables d.files = .ok a) :
    a.removed + (d.trim a).rowTotal = d.rowTotal := by
  obtain ⟨-, hall, hnone, hsum⟩ := retainTables_ok
    (fun name t ht => (h.live.tables name t ht).sound) ha
  have hkeys : (a.tables.toList.map Prod.fst).Perm
      (d.live.catalog.tables.toList.map Prod.fst) := by
    refine (List.perm_ext_iff_of_nodup (Map.nodup_keys_toList _)
      (Map.nodup_keys_toList _)).mpr fun name => ?_
    rw [mem_keys, mem_keys]
    constructor
    · rintro ⟨t', ht'⟩
      cases ht : d.live.catalog.tables[name]? with
      | none =>
        rw [hnone name ht] at ht'
        cases ht'
      | some t => exact ⟨t, rfl⟩
    · rintro ⟨t, ht⟩
      obtain ⟨t', ht', -⟩ := hall name t ht
      exact ⟨t', ht'⟩
  have hafter : (d.trim a).rowTotal = (d.live.catalog.tables.toList.map fun entry =>
      (keptRows nowUs d.files entry.2).length).sum := by
    have hsame := (hkeys.map fun name => ((d.trim a).rows name).length).sum_eq
    rw [List.map_map, List.map_map] at hsame
    refine hsame.trans (congrArg List.sum (List.map_congr_left fun entry hentry => ?_))
    obtain ⟨t', -, -, hrows, -⟩ := rows_trim h hc ha (Map.mem_toList.mp hentry)
    exact hrows.length_eq
  have hbefore : d.rowTotal = (d.live.catalog.tables.toList.map fun entry =>
      (segmentRows d.files entry.2.segments).length).sum := by
    refine congrArg List.sum (List.map_congr_left fun entry hentry => ?_)
    obtain ⟨t', -, -, -, hrows⟩ := rows_trim h hc ha (Map.mem_toList.mp hentry)
    exact congrArg List.length hrows
  rw [hafter, hbefore]
  exact hsum

theorem trimmed_trim (h : Inv config d) (he : LiveExpiry d.live) (hc : d.live.Checkpointed)
    (hnow : nowUs ≤ i64Max) {a : Sweep F}
    (ha : retainTables config nowUs d.live.catalog.tables d.files = .ok a)
    (ht : d.table name = some t) :
    ∃ t', (d.trim a).table name = some t' ∧ Trimmed d (d.trim a) name t t' := by
  obtain ⟨t', ht', hr, hrows, hold⟩ := rows_trim h hc ha ht
  refine ⟨t', ht', fun hage => ?_, fun hage => ?_⟩
  · obtain ⟨age, hage⟩ := Option.isSome_iff_exists.mp hage
    have hcut : t'.cutoffUs = nextCutoff nowUs t.config.retentionUs t.cutoffUs := by rw [hr.table]
    rw [hage] at hcut
    refine ⟨_, hcut, ?_⟩
    rw [hold]
    refine hrows.trans (.of_eq ?_)
    rw [keptRows, hage]
    refine List.filter_congr fun r _ => ?_
    simp [above, nextCutoff]
  · have hroll : t'.rollups = keepRollups nowUs t := by rw [hr.table]
    have hcut : t'.rollupCutoffUs =
        nextCutoff nowUs t.config.rollupRetentionUs t.rollupCutoffUs := by rw [hr.table]
    have hexp := he name t ht
    have hbounds := nextCutoff_bounds hnow hexp.age hexp.cutoff
    obtain ⟨age, hsome⟩ := Option.isSome_iff_exists.mp hage
    rw [hsome] at hcut hbounds
    refine ⟨_, hcut, fun key row => ?_⟩
    rw [hroll, mem_keepRollups, hsome]
    refine and_congr_right fun _ => ?_
    simp only [Option.isSome_some, forall_const, Unexpired]
    exact ⟨fun hrow => (lt_saturatingAdd_iff (hbounds _ rfl)).mp (hrow _ rfl), fun hrow c hc => by
      cases hc
      exact (lt_saturatingAdd_iff (hbounds _ rfl)).mpr hrow⟩

theorem retention_exact (hd : (lasting config).Reachable d) :
    (∀ nowUs removed d', Step config d (.retain nowUs removed) d' →
      removed + d'.rowTotal = d.rowTotal ∧
      ∀ (name : Text) (t : Table F), d.table name = some t →
        ∃ t', d'.table name = some t' ∧ Trimmed d d' name t t') ∧
    ∀ labels d', (lasting config).Path d labels d' → CutoffsGrow d d' ∧ Gone d d' := by
  obtain ⟨h, he⟩ := expiry_reachable hd
  refine ⟨fun nowUs removed d' hs => ?_, fun labels d' hp => ?_⟩
  · cases hs with
    | retain hnow _ hc ha _ hv =>
      exact ⟨rowTotal_trim h hc ha, fun name t ht => trimmed_trim h he hc hnow ha ht⟩
  · have hgrow : CutoffsGrow d d' := by
      refine hp.rel hd (fun s => cutoffsGrow_of_eq fun _ t ht => ⟨t, ht, rfl, rfl⟩)
        (fun _ _ _ => CutoffsGrow.trans) fun s l s' hs hstep => ?_
      exact cutoffsGrow_step (expiry_reachable hs).1 hstep.2
    obtain ⟨h', he'⟩ := expiry_reachable (hp.reachable hd)
    exact ⟨hgrow, gone_of_grow h' he' hgrow⟩

section
open Rollup (smallLimits rowAt orElse ok_orElse)

def crossing : Db Int :=
  draining (committing (committing emptyDb
      (.createTable "t".toList ⟨1, 1000, none, some 985, none, [60], some 100, none⟩))
    (.append [⟨"t".toList, [rowAt 12 5, rowAt 17 3]⟩]))

theorem lasting_crossing : (lasting smallConfig).Reachable crossing := by
  have hinit : (lasting smallConfig).Reachable emptyDb :=
    .init ⟨rfl, rfl, rfl, rfl, rfl, rfl, rfl, rfl⟩
  have hmade := hinit.step ⟨by decide, step_committing (d := emptyDb) (o := .createTable "t".toList
    ⟨1, 1000, none, some 985, none, [60], some 100, none⟩) trivial (by decide +kernel)⟩
  have hrows := hmade.step ⟨by decide, step_committing
    (o := .append [⟨"t".toList, [rowAt 12 5, rowAt 17 3]⟩]) trivial (by decide +kernel)⟩
  exact hrows.step ⟨by decide, step_draining (inv_reachable hrows.of_restrict) (by decide +kernel)
    (by decide +kernel)⟩

def sweeping (d : Db Int) (nowUs : Int) : Sweep Int :=
  orElse (retainTables smallConfig nowUs d.live.catalog.tables d.files) ⟨∅, ∅, 0, false⟩

theorem step_sweeping (d : Db Int) (nowUs : Int) (hc : d.live.Checkpointed)
    (hnow : nowUs ≤ i64Max) (hh : hasRetention d.live.catalog.tables = true)
    (ha : (retainTables smallConfig nowUs d.live.catalog.tables d.files).toOption.isSome = true)
    (hch : (sweeping d nowUs).changed = true)
    (hv : validateManifest (d.trim (sweeping d nowUs)).live.catalog = .ok ()) :
    Step smallConfig d (.retain nowUs (sweeping d nowUs).removed) (d.trim (sweeping d nowUs)) :=
  Step.retain hnow hh hc (ok_orElse ha) hch hv

theorem crossing_checkpointed : crossing.live.Checkpointed := rfl

theorem retention_exact_crossing :
    ∃ d d' : Db Int, (lasting smallConfig).Reachable d ∧
      Step smallConfig d (.retain 1000 1) d' ∧ d.rowTotal = 2 ∧ d'.rowTotal = 1 ∧
      ∃ t t', d.table "t".toList = some t ∧ d'.table "t".toList = some t' ∧
        Trimmed d d' "t".toList t t' := by
  have hone : (sweeping crossing 1000).removed = 1 := by decide +kernel
  have hstep := step_sweeping crossing 1000 crossing_checkpointed (by decide) (by decide +kernel)
    (by decide +kernel) (by decide +kernel) (by decide +kernel)
  rw [hone] at hstep
  have hthere : (crossing.table "t".toList).isSome = true := by decide +kernel
  obtain ⟨t, ht⟩ := Option.isSome_iff_exists.mp hthere
  obtain ⟨-, hall⟩ := (retention_exact lasting_crossing).1 _ _ _ hstep
  obtain ⟨t', ht', htrim⟩ := hall _ t ht
  exact ⟨crossing, _, lasting_crossing, hstep, by decide +kernel, by decide +kernel, t, t', ht, ht',
    htrim⟩

end

section
open Rollup (smallLimits rowAt orElse ok_orElse)

def expiredDb : Db Int := twoSegments.trim (sweeping twoSegments 1000)

def minutes : Backfill Int :=
  orElse (captureBackfill expiredDb.live expiredDb.files "m".toList "t".toList 60 100000)
    ⟨[], ⟨[], 0, 0, none, [], ∅, 0⟩⟩

def capturedDb : Db Int := { expiredDb with backfills := minutes :: expiredDb.backfills }

def minuteRollups : Map (RollupRow Int) := orElse minutes.pending.backfill ∅

def minutesOperation : Operation Int :=
  minutes.operation (capturedDb.live.sequence + 1) minuteRollups

def returnedDb : Db Int :=
  capturedDb.commit minutesOperation
    (orElse (applyRecord smallLimits capturedDb.live minutesOperation) capturedDb.live)

def firstMinute : Text := rollupKey 60 0 "a".toList "s".toList ∅

/-- The rollup of the first minute, if the table has it. -/
def Db.minute (d : Db Int) : Option (RollupRow Int) :=
  (d.table "t".toList).bind fun t => t.rollups[firstMinute]?

theorem expired_rollup_returns :
    ∃ d₀ d₁ d₂ : Db Int, (machine smallConfig).Reachable d₀ ∧
      Step smallConfig d₀ (.retain 1000 0) d₁ ∧
      (machine smallConfig).Path d₁ [.capture, .create true] d₂ ∧
      d₀.minute.isSome ∧ d₁.minute.isNone ∧
      (d₁.table "t".toList).bind Table.rollupCutoffUs = some 900 ∧
      (d₂.table "t".toList).bind Table.rollupCutoffUs = some 900 ∧
      d₂.minute.map (fun row => row.bucketUs + row.widthUs) = some 60 := by
  have hzero : (sweeping twoSegments 1000).removed = 0 := by decide +kernel
  have hretain := step_sweeping twoSegments 1000 twoSegments_checkpointed (by decide)
    (by decide +kernel) (by decide +kernel) (by decide +kernel) (by decide +kernel)
  rw [hzero] at hretain
  have hcapture : Step smallConfig expiredDb .capture capturedDb :=
    Step.capture twoSegments_checkpointed (ok_orElse (by decide +kernel))
  have hrollups : minutes.pending.backfill = .ok minuteRollups := ok_orElse (by decide +kernel)
  have hbarrier : capturedDb.live.sequence = minutes.pending.barrier := by decide +kernel
  have hrecord : applyRecord smallLimits capturedDb.live minutesOperation =
      .ok (orElse (applyRecord smallLimits capturedDb.live minutesOperation) capturedDb.live) :=
    ok_orElse (by decide +kernel)
  have houtlived : capturedDb.live.outlived minutes.source minuteRollups = true := by
    decide +kernel
  have hcreate : Step smallConfig capturedDb
      (.create (capturedDb.live.outlived minutes.source minuteRollups)) returnedDb :=
    Step.create List.mem_cons_self hrollups hbarrier hrecord
  rw [houtlived] at hcreate
  exact ⟨twoSegments, expiredDb, returnedDb, reachable_twoSegments, hretain,
    .cons hcapture (.cons hcreate .nil), by decide +kernel, by decide +kernel, by decide +kernel,
    by decide +kernel, by decide +kernel⟩

end

end Varve.Store
