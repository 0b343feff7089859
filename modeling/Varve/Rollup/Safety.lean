import Varve.Rollup.Tracks

/-!
# Rollups are exact

Every stored rollup of an active width has the figures of the committed rows of its bucket, as long
as the bucket lies above both cutoffs.
-/

namespace Varve.Rollup

open Engine
open Result (bind_ok ensure_ok ensure_bind)

variable {F : Type} [LinearOrder F] [F64 F]
variable {now : Int} {o : Operation F}

structure Good (s : Source F) : Prop where
  nodup : s.table.config.rollupWidthsUs.Nodup
  age : ∀ age ∈ s.table.config.rollupRetentionUs, 0 < age
  cutoff : ∀ cutoff ∈ s.table.rollupCutoffUs, cutoff < i64Max
  tracks : Tracks s.table.config.rollupWidthsUs (Scope s.table) (fun b => b.rows s.committed)
    (s.table.rollups[·]?)
  raw : (s.raw.filter (above s.table.cutoffUs)).Perm (s.committed.filter (above s.table.cutoffUs))
  subset : ∀ r ∈ s.raw, r ∈ s.committed
  admitted : ∀ r ∈ s.committed, Admitted r
  distinct : (s.committed.map fun r => (r.sequence, r.ordinal)).Nodup

/-- Every committed row has a place before the given one. -/
def Before (sequence ordinal : Nat) (s : Source F) : Prop :=
  ∀ r ∈ s.committed, r.sequence < sequence ∨ r.sequence = sequence ∧ r.ordinal < ordinal

section
omit [LinearOrder F] [F64 F]

theorem Before.mono {sequence ordinal ordinal' : Nat} {s : Source F} (h : Before sequence ordinal s)
    (ho : ordinal ≤ ordinal') : Before sequence ordinal' s :=
  fun r hr => (h r hr).imp_right fun hx => ⟨hx.1, hx.2.trans_le ho⟩

theorem rows_filter_above {b : Bucket} {cutoff : Option Int} (hw : 0 < b.widthUs)
    (hc : ∀ c ∈ cutoff, c ≤ b.startUs) (l : List (StoredRow F)) :
    b.rows (l.filter (above cutoff)) = b.rows l := by
  simp only [Bucket.rows, List.filter_filter]
  refine List.filter_congr fun r _ => ?_
  by_cases hb : bucketOf b.widthUs r.row = b
  · have hstart : b.startUs ≤ r.row.timestampUs := by
      have := bucketOf_start_le hw r.row
      rwa [hb] at this
    have ha : above cutoff r = true := decide_eq_true fun c h => (hc c h).trans hstart
    simp [hb, ha]
  · simp [hb]

theorem rows_perm_of_above {b : Bucket} {cutoff : Option Int} {l m : List (StoredRow F)}
    (hw : 0 < b.widthUs) (hc : ∀ c ∈ cutoff, c ≤ b.startUs)
    (h : (l.filter (above cutoff)).Perm (m.filter (above cutoff))) :
    (b.rows l).Perm (b.rows m) := by
  rw [← rows_filter_above hw hc l, ← rows_filter_above hw hc m]
  exact h.filter _

end

-- Appends

section
variable {limits : Limits} {sequence ordinal : Nat} {rows : List (Row F)} {s s' : Source F}

omit [LinearOrder F] [F64 F] in
theorem mem_stored {r : StoredRow F} (h : r ∈ stored sequence ordinal rows) :
    r.row ∈ rows ∧ r.sequence = sequence ∧ ordinal ≤ r.ordinal ∧
      r.ordinal < ordinal + rows.length := by
  simp only [stored, List.mem_map] at h
  obtain ⟨⟨row, i⟩, hp, rfl⟩ := h
  obtain ⟨hlo, hhi, hget⟩ := List.mem_zipIdx hp
  exact ⟨hget ▸ List.getElem_mem _, rfl, hlo, hhi⟩

omit [LinearOrder F] [F64 F] in
theorem stored_distinct : ((stored sequence ordinal rows).map
    fun r => (r.sequence, r.ordinal)).Nodup := by
  have hmap : (stored sequence ordinal rows).map (fun r => (r.sequence, r.ordinal)) =
      (List.range' ordinal rows.length).map fun i => (sequence, i) := by
    rw [stored, ← List.zipIdx_map_snd ordinal rows, List.map_map, List.map_map]
    rfl
  rw [hmap]
  exact (List.nodup_range' (h := Nat.one_pos)).map fun i j hij => (Prod.mk.inj hij).2

omit [LinearOrder F] in
theorem appendRows_ok (h : appendRows limits sequence ordinal rows s = .ok s') :
    (∀ row ∈ rows, row.validate = .ok ()) ∧
    ∃ u : Updates F, (rows.zipIdx ordinal).foldlM (fun updates (row, ordinal) =>
        s.table.config.rollupWidthsUs.foldlM (updateWidth s.table row sequence ordinal
          limits.updateBudget (s.table.rollups[·]?)) updates) ⟨∅, 0⟩ = .ok u ∧
      s' = { s with
        table := { s.table with rollups := s.table.rollups ∪ u.rows }
        raw := s.raw ++ stored sequence ordinal rows
        committed := s.committed ++ stored sequence ordinal rows } := by
  obtain ⟨⟨⟩, hrows, h⟩ := bind_ok.mp h
  obtain ⟨updates, hu, h⟩ := bind_ok.mp h
  obtain ⟨u, hfold, ho⟩ := bind_ok.mp hu
  obtain rfl := Except.ok.inj ho
  refine ⟨fun row hr => ?_, u, hfold, (Except.ok.inj h).symm⟩
  obtain ⟨⟨⟩, hv, -⟩ := bind_ok.mp (Result.forM_ok.mp hrows row hr)
  exact hv

theorem good_appendRows (hF : Ordered F) (hg : Good s) (hb : Before sequence ordinal s)
    (hpos : 0 < sequence) (h : appendRows limits sequence ordinal rows s = .ok s') :
    Good s' ∧ Before sequence (ordinal + rows.length) s' := by
  obtain ⟨hvalid, u, hu, rfl⟩ := appendRows_ok h
  have hadm : ∀ r ∈ stored sequence ordinal rows, Admitted r := fun r hr => by
    obtain ⟨hrow, hseq, -⟩ := mem_stored hr
    exact ⟨hvalid _ hrow, hseq ▸ hpos⟩
  have hstart : Tracks s.table.config.rollupWidthsUs (Scope s.table)
      (fun b => b.rows s.committed) (Updates.see s.table ⟨∅, 0⟩) := by
    have hsee : Updates.see s.table ⟨∅, 0⟩ = (s.table.rollups[·]?) := by
      funext k
      simp [Updates.see]
    rw [hsee]
    exact hg.tracks
  have htracks := hstart.updateRows hF hg.cutoff hg.nodup
    (fun p hp => hadm _ (List.mem_map.mpr ⟨p, hp, rfl⟩)) hu
  refine ⟨⟨hg.nodup, hg.age, hg.cutoff, ?_, ?_, ?_, ?_, ?_⟩, ?_⟩
  · have hsee : (fun k => (s.table.rollups ∪ u.rows)[k]?) = u.see s.table := by
      funext k
      exact Std.ExtTreeMap.getElem?_union
    rw [hsee]
    exact htracks
  · simp only [List.filter_append]
    exact hg.raw.append_right _
  · simp only [List.mem_append]
    rintro r (hr | hr)
    · exact .inl (hg.subset r hr)
    · exact .inr hr
  · simp only [List.mem_append]
    rintro r (hr | hr)
    · exact hg.admitted r hr
    · exact hadm r hr
  · rw [List.map_append]
    refine hg.distinct.append stored_distinct ?_
    simp only [List.disjoint_left, List.mem_map, not_exists, not_and]
    rintro _ ⟨r, hr, rfl⟩ x hx he
    obtain ⟨-, hseq, hlo, -⟩ := mem_stored hx
    obtain ⟨hs, ho⟩ := Prod.mk.inj he
    rcases hb r hr with hlt | ⟨-, hlt⟩
    · omega
    · omega
  · simp only [Before, List.mem_append]
    rintro r (hr | hr)
    · exact hb.mono (Nat.le_add_right _ _) r hr
    · obtain ⟨-, hseq, -, hhi⟩ := mem_stored hr
      exact .inr ⟨hseq, hhi⟩

theorem good_appendItems (hF : Ordered F) {items : List (AppendItem F)} (hpos : 0 < sequence)
    (hg : Good s) (hb : Before sequence ordinal s)
    (h : appendItems limits sequence ordinal items s = .ok s') :
    Good s' ∧ ∃ last, Before sequence last s' := by
  induction items generalizing ordinal s with
  | nil =>
    obtain rfl := Except.ok.inj h
    exact ⟨hg, ordinal, hb⟩
  | cons item items ih =>
    simp only [appendItems, ensure_bind] at h
    obtain ⟨-, h⟩ := h
    split at h
    · obtain ⟨mid, hmid, h⟩ := bind_ok.mp h
      obtain ⟨hg', hb'⟩ := good_appendRows hF hg hb hpos hmid
      exact ih hg' hb' h
    · obtain ⟨mid, hmid, h⟩ := bind_ok.mp h
      obtain rfl := Except.ok.inj hmid
      exact ih hg (hb.mono (Nat.le_add_right _ _)) h

end

-- Control records

omit [LinearOrder F] [F64 F] in
theorem setPolicy_ok {policy : LifecyclePolicy} {t t' : Table F} (h : setPolicy policy t = .ok t') :
    (∀ age ∈ t'.config.rollupRetentionUs, 0 < age) ∧
    t'.config.rollupWidthsUs = t.config.rollupWidthsUs ∧ t'.rollups = t.rollups ∧
    t'.cutoffUs = t.cutoffUs ∧ t'.rollupCutoffUs = t.rollupCutoffUs := by
  obtain ⟨⟨⟩, hp, h⟩ := bind_ok.mp h
  obtain ⟨-, h⟩ := ensure_bind.mp h
  obtain ⟨⟨⟩, -, h⟩ := bind_ok.mp h
  obtain rfl := Except.ok.inj h
  simp only [LifecyclePolicy.validate, validateDurations, ensure_ok] at hp
  refine ⟨fun age (ha : policy.rollupRetentionUs = some age) => hp age ?_, rfl, rfl, rfl, rfl⟩
  simp [ha]

variable {s : Source F} {limits : Limits}

theorem good_setPolicy {policy : LifecyclePolicy} {t : Table F} (hg : Good s)
    (h : setPolicy policy s.table = .ok t) : Good { s with table := t } := by
  obtain ⟨hage, hw, hr, hc, hrc⟩ := setPolicy_ok h
  have hscope : ∀ b, Scope t b ↔ Scope s.table b := fun b => by simp only [Scope, hw, hc, hrc]
  refine ⟨by simpa only [hw] using hg.nodup, hage, by simpa only [hrc] using hg.cutoff, ?_,
    by simpa only [hc] using hg.raw, hg.subset, hg.admitted, hg.distinct⟩
  simp only [hw, hr]
  exact hg.tracks.mono (fun _ hw => hw) fun b hb => ⟨(hscope b).mp hb, .refl _⟩

omit [LinearOrder F] [F64 F] in
theorem activate_ok {w : Int} {backfill : Map (RollupRow F)} {t t' : Table F}
    (hn : t.config.rollupWidthsUs.Nodup) (h : activate w backfill t = .ok t') :
    (∀ v, v ∈ t'.config.rollupWidthsUs ↔ v ∈ t.config.rollupWidthsUs ∨ v = w) ∧
    t'.config.rollupWidthsUs.Nodup ∧ t'.config.rollupRetentionUs = t.config.rollupRetentionUs ∧
    t'.rollups = t.rollups ∪ backfill ∧ t'.cutoffUs = t.cutoffUs ∧
    t'.rollupCutoffUs = t.rollupCutoffUs := by
  obtain ⟨config, hc, h⟩ := bind_ok.mp h
  obtain ⟨-, h⟩ := ensure_bind.mp h
  obtain rfl := Except.ok.inj h
  unfold activateWidth at hc
  split at hc
  next hw =>
    obtain rfl := Except.ok.inj hc
    refine ⟨fun v => ⟨.inl, ?_⟩, hn, rfl, rfl, rfl, rfl⟩
    rintro (hv | rfl)
    · exact hv
    · exact hw
  next hw =>
    obtain ⟨-, hc⟩ := ensure_bind.mp hc
    obtain rfl := Except.ok.inj hc
    refine ⟨fun v => by simp [List.mem_insertionSort], ?_, rfl, rfl, rfl, rfl⟩
    refine (List.perm_insertionSort _ _).nodup_iff.mpr ?_
    simp only [List.nodup_append, List.nodup_singleton, List.mem_singleton]
    exact ⟨hn, trivial, fun a ha b hb he => hw (by rwa [← hb, ← he])⟩

theorem good_activate {w : Int} {backfill : Map (RollupRow F)} {t : Table F}
    (hg : Good s) (h : activate w backfill s.table = .ok t)
    (hb : Tracks [w] (fun b => b.widthUs = w ∧ (∀ c ∈ s.table.cutoffUs, c ≤ b.startUs) ∧
        ∀ c ∈ s.table.rollupCutoffUs, c < b.startUs + b.widthUs)
      (fun b => b.rows s.committed) (backfill[·]?)) :
    Good { s with table := t } := by
  obtain ⟨hw, hn, hage, hr, hc, hrc⟩ := activate_ok hg.nodup h
  refine ⟨hn, by simpa only [hage] using hg.age, by simpa only [hrc] using hg.cutoff, ?_,
    by simpa only [hc] using hg.raw, hg.subset, hg.admitted, hg.distinct⟩
  have hlook : (fun k : Text => t.rollups[k]?) =
      fun k => (backfill[k]?).or s.table.rollups[k]? := by
    funext k
    rw [hr]
    exact Std.ExtTreeMap.getElem?_union
  simp only [hlook]
  refine hg.tracks.union hb hw (fun b hb => hb.1) ?_ ?_
  · rintro b ⟨-, hcut, hrcut⟩ hin
    rw [hc] at hcut
    rw [hrc] at hrcut
    exact ⟨hin, hcut, hrcut⟩
  · rintro b ⟨-, hcut, hrcut⟩ hwidth
    rw [hc] at hcut
    rw [hrc] at hrcut
    exact ⟨hwidth, hcut, hrcut⟩

theorem good_deactivate {w : Int} {shared : Bool} (hg : Good s) :
    Good { s with table := deactivate w shared s.table } := by
  unfold deactivate
  split
  · refine ⟨hg.nodup.filter _, hg.age, hg.cutoff, ?_, hg.raw, hg.subset, hg.admitted, hg.distinct⟩
    refine hg.tracks.filter ?_ ?_ ?_
    · rintro b ⟨hin, hcut⟩
      exact ⟨(List.mem_filter.mp hin).1, hcut⟩
    · rintro key agg - ⟨hin, -⟩
      exact (List.mem_filter.mp hin).2
    · intro agg hk hin
      exact List.mem_filter.mpr ⟨hin, hk⟩
  · exact hg

-- Retention

variable {age cutoff : Option Int}

theorem nextCutoff_mono {c : Int} (h : c ∈ cutoff) :
    ∃ c' ∈ nextCutoff now age cutoff, c ≤ c' := by
  cases age with
  | none => exact ⟨c, h, le_refl c⟩
  | some age => exact ⟨_, rfl, by simp [Option.mem_def.mp h]⟩

theorem nextCutoff_lt (hnow : now ≤ i64Max)
    (hage : ∀ a ∈ age, 0 < a) (hc : ∀ c ∈ cutoff, c < i64Max) :
    ∀ c ∈ nextCutoff now age cutoff, c < i64Max := by
  cases age with
  | none => exact hc
  | some age =>
    have hpos := hage age rfl
    have hnew : checkedCutoff now age < i64Max := by
      simp only [checkedCutoff, saturatingSub, clamp, i64Min, i64Max] at *
      omega
    have hold : cutoff.getD i64Min < i64Max := by
      cases cutoff with
      | none => decide
      | some c => exact hc c rfl
    rintro c ⟨⟩
    exact max_lt hnew hold

section
omit [LinearOrder F] [F64 F]

theorem above_of_nextCutoff {r : StoredRow F}
    (h : above (nextCutoff now age cutoff) r = true) : above cutoff r = true := by
  simp only [above, decide_eq_true_eq] at *
  intro c hc
  obtain ⟨c', hc', hle⟩ := nextCutoff_mono hc
  exact hle.trans (h c' hc')

theorem filter_filter_above (l : List (StoredRow F)) :
    (l.filter (above cutoff)).filter (above (nextCutoff now age cutoff)) =
      l.filter (above (nextCutoff now age cutoff)) := by
  rw [List.filter_filter]
  refine List.filter_congr fun r _ => ?_
  cases h : above (nextCutoff now age cutoff) r with
  | false => rfl
  | true => simp [above_of_nextCutoff h]

theorem perm_next {l m : List (StoredRow F)}
    (h : (l.filter (above cutoff)).Perm (m.filter (above cutoff))) :
    (l.filter (above (nextCutoff now age cutoff))).Perm
      (m.filter (above (nextCutoff now age cutoff))) := by
  rw [← filter_filter_above l, ← filter_filter_above m]
  exact h.filter _

theorem scope_of_retained (now : Int) {b : Bucket}
    (h : Scope (retained now s).table b) : Scope s.table b := by
  obtain ⟨hw, hc, hrc⟩ := h
  refine ⟨hw, fun c hm => ?_, fun c hm => ?_⟩
  · obtain ⟨c', hc', hle⟩ := nextCutoff_mono hm
    exact hle.trans (hc c' hc')
  · obtain ⟨c', hc', hle⟩ := nextCutoff_mono hm
    exact hle.trans_lt (hrc c' hc')

end

theorem good_retained (hnow : now ≤ i64Max) (hg : Good s) :
    Good (retained now s) := by
  have hcut := nextCutoff_lt hnow hg.age hg.cutoff
  have hsub : ∀ r ∈ (retained now s).raw, r ∈ s.raw := by
    simp only [retained]
    split
    · intro r hr
      exact (List.mem_filter.mp hr).1
    · exact fun r hr => hr
  refine ⟨hg.nodup, hg.age, hcut, ?_, ?_, fun r hr => hg.subset r (hsub r hr), hg.admitted,
    hg.distinct⟩
  · simp only [retained]
    split
    · refine hg.tracks.filter (fun b hb => scope_of_retained now hb) ?_ fun _ _ hw => hw
      rintro key agg hb ⟨-, -, hrc⟩
      simp only [decide_eq_true_eq]
      intro c hc
      exact lt_saturatingAdd (hcut c hc) (hrc c hc)
    · exact hg.tracks.mono (fun _ hw => hw) fun b hb => ⟨scope_of_retained now hb, .refl _⟩
  · simp only [retained]
    split
    · simpa only [List.filter_filter, Bool.and_self] using perm_next hg.raw
    · exact perm_next hg.raw

/-- What an aggregate between its turns may still rely on while the sequence stands. -/
structure Fresh (s : Source F) (p : Pending F) : Prop where
  width : 0 < p.widthUs
  cutoff : ∀ c ∈ p.cutoffUs, ∃ c' ∈ s.table.cutoffUs, c ≤ c'
  raw : (p.segments.flatten.filter (above s.table.cutoffUs)).Perm
    (s.committed.filter (above s.table.cutoffUs))
  subset : ∀ r ∈ p.segments.flatten, r ∈ s.committed
  existing : Tracks [p.widthUs] (fun b => Scope s.table b ∧ b.widthUs = p.widthUs)
    (fun b => b.rows s.committed) (p.existing[·]?)
  active : p.existing.isEmpty = true ∨ p.widthUs ∈ s.table.config.rollupWidthsUs

theorem fresh_captured {p : Pending F} (hg : Good s) (h : Captured s p) :
    Fresh s p where
  width := h.width
  cutoff c hc := ⟨c, h.cutoff ▸ hc, le_refl c⟩
  raw := (h.segments.filter _).trans hg.raw
  subset r hr := hg.subset r (h.segments.mem_iff.mp hr)
  existing := by
    rw [h.existing]
    split
    · refine hg.tracks.filter (fun b hb => hb.1) ?_ ?_
      · rintro key agg - ⟨-, hw⟩
        exact decide_eq_true hw
      · intro agg hk _
        simpa using hk
    next hw =>
      refine ⟨fun b hb => ?_, by simp⟩
      exact absurd (hb.2 ▸ hb.1.1) hw
  active := by
    rw [h.existing]
    split
    next hw => exact .inr hw
    next => exact .inl (by simp)

theorem Fresh.retained {p : Pending F} (h : Fresh s p) :
    Fresh (retained now s) p where
  width := h.width
  cutoff c hc := by
    obtain ⟨c', hc', hle⟩ := h.cutoff c hc
    obtain ⟨c'', hc'', hle'⟩ := nextCutoff_mono hc'
    exact ⟨c'', hc'', hle.trans hle'⟩
  raw := perm_next h.raw
  subset := h.subset
  existing := h.existing.mono (fun _ hw => hw) fun b hb =>
    ⟨⟨scope_of_retained now hb.1, hb.2⟩, .refl _⟩
  active := h.active

theorem Fresh.backfill (hF : Ordered F) {p : Pending F} {out : Map (RollupRow F)}
    (hg : Good s) (h : Fresh s p) (hb : p.backfill = .ok out) :
    Tracks [p.widthUs] (fun b => b.widthUs = p.widthUs ∧
        (∀ c ∈ s.table.cutoffUs, c ≤ b.startUs) ∧
        ∀ c ∈ s.table.rollupCutoffUs, c < b.startUs + b.widthUs)
      (fun b => b.rows s.committed) (out[·]?) := by
  unfold Pending.backfill at hb
  split at hb
  next he =>
    rw [Std.ExtTreeMap.isEmpty_iff.mp he] at hb
    have ht := tracks_backfill hF h.width (fun r hr => hg.admitted r (h.subset r hr)) hb
    refine ht.mono (fun _ hw => hw) ?_
    rintro b ⟨hw, hc, -⟩
    refine ⟨⟨hw, fun c hcut => ?_⟩, rows_perm_of_above (hw ▸ h.width) hc h.raw⟩
    obtain ⟨c', hc', hle⟩ := h.cutoff c hcut
    exact hle.trans (hc c' hc')
  next he =>
    obtain rfl := Except.ok.inj hb
    have hact := h.active.resolve_left he
    refine h.existing.mono (fun _ hw => hw) ?_
    rintro b ⟨hw, hc, hrc⟩
    exact ⟨⟨⟨hw ▸ hact, hc, hrc⟩, hw⟩, .refl _⟩

theorem Good.congr {s s' : Source F} (h : Good s) (ht : s'.table = s.table) (hr : s'.raw = s.raw)
    (hc : s'.committed = s.committed) : Good s' := by
  obtain ⟨hn, ha, hcut, htr, hraw, hsub, hadm, hd⟩ := h
  constructor
  all_goals simp only [ht, hr, hc]
  all_goals assumption

/-- A record that creates an aggregate on this table carries a backfill that is exact. -/
def Sound (s : Source F) : Operation F → Prop
  | .createContinuousAggregate aggregate backfill => aggregate.source = s.name →
    Tracks [aggregate.widthUs] (fun b => b.widthUs = aggregate.widthUs ∧
        (∀ c ∈ s.table.cutoffUs, c ≤ b.startUs) ∧
        ∀ c ∈ s.table.rollupCutoffUs, c < b.startUs + b.widthUs)
      (fun b => b.rows s.committed) (backfill[·]?)
  | _ => True

theorem sound_direct (h : o.Direct s.name) : Sound s o := by
  cases o with
  | createContinuousAggregate aggregate backfill => exact fun he => absurd he h
  | _ => trivial

theorem good_applyOperation (hF : Ordered F) {s s' : Source F}
    (hg : Good s) (hb : Before (s.sequence + 1) 0 s) (ho : Sound s o)
    (h : applyOperation limits s o = .ok s') :
    Good s' ∧ ∃ last, Before (s.sequence + 1) last s' := by
  cases o with
  | append items => exact good_appendItems hF (Nat.succ_pos _) hg hb h
  | setPolicy table policy =>
    simp only [applyOperation] at h
    split at h
    · obtain ⟨t, ht, h⟩ := bind_ok.mp h
      obtain rfl := Except.ok.inj h
      exact ⟨good_setPolicy hg ht, 0, hb⟩
    · obtain rfl := Except.ok.inj h
      exact ⟨hg, 0, hb⟩
  | createContinuousAggregate aggregate backfill =>
    obtain ⟨⟨⟩, -, h⟩ := bind_ok.mp h
    simp only [ensure_bind] at h
    obtain ⟨-, -, -, h⟩ := h
    split at h
    next hsource =>
      obtain ⟨t, ht, h⟩ := bind_ok.mp h
      obtain rfl := Except.ok.inj h
      exact ⟨(good_activate hg ht (ho hsource)).congr rfl rfl rfl, 0, hb⟩
    next =>
      obtain ⟨t, ht, h⟩ := bind_ok.mp h
      obtain rfl := Except.ok.inj ht
      obtain rfl := Except.ok.inj h
      exact ⟨hg.congr rfl rfl rfl, 0, hb⟩
  | dropContinuousAggregate name =>
    obtain ⟨aggregate, -, h⟩ := bind_ok.mp h
    obtain rfl := Except.ok.inj h
    refine ⟨?_, 0, hb⟩
    by_cases hsource : aggregate.source = s.name
    · exact (good_deactivate hg).congr (if_pos hsource) rfl rfl
    · exact hg.congr (if_neg hsource) rfl rfl
  | other =>
    obtain rfl := Except.ok.inj h
    exact ⟨hg, 0, hb⟩

theorem good_applyRecord (hF : Ordered F) {s s' : Source F}
    (hg : Good s) (hb : Before (s.sequence + 1) 0 s) (ho : Sound s o)
    (h : applyRecord limits s o = .ok s') :
    Good s' ∧ Before (s'.sequence + 1) 0 s' ∧ s'.sequence = s.sequence + 1 := by
  obtain ⟨mid, hmid, h⟩ := bind_ok.mp h
  obtain rfl := Except.ok.inj h
  obtain ⟨hg', last, hb'⟩ := good_applyOperation hF hg hb ho hmid
  refine ⟨hg'.congr rfl rfl rfl, fun r hr => .inl ?_, rfl⟩
  rcases hb' r hr with hlt | ⟨heq, -⟩
  · exact Nat.lt_succ_of_lt hlt
  · exact Nat.lt_succ_of_le heq.le

-- Runs

structure Inv (limits : Limits) (d : Db F) : Prop where
  good : Good d.live
  before : Before (d.live.sequence + 1) 0 d.live
  replay : d.log.foldlM (applyRecord limits) d.root = .ok d.live
  pending : ∀ p ∈ d.pending, p.barrier ≤ d.live.sequence ∧
    (p.barrier = d.live.sequence → Fresh d.live p)

omit [LinearOrder F] in
theorem replay_snoc {log : List (Operation F)} {root s s' : Source F}
    (h : log.foldlM (applyRecord limits) root = .ok s)
    (ho : applyRecord limits s o = .ok s') :
    (log ++ [o]).foldlM (applyRecord limits) root = .ok s' := by
  rw [List.foldlM_append, h, Result.ok_bind, List.foldlM_cons, ho]
  rfl

theorem Inv.commit (hF : Ordered F) {d : Db F}
    (h : Inv limits d) (ho : Sound d.live o) (hs : applyRecord limits d.live o = .ok s) :
    Inv limits { d with live := s, log := d.log ++ [o] } := by
  obtain ⟨hg, hb, hseq⟩ := good_applyRecord hF h.good h.before ho hs
  refine ⟨hg, hb, replay_snoc h.replay hs, fun p hp => ?_⟩
  have hle := (h.pending p hp).1
  exact ⟨by simp only [hseq]; omega, fun he => by simp only [hseq] at he; omega⟩

theorem inv_created {d : Db F} (h : Created d) : Inv limits d := by
  have hcommitted := h.committed
  have hempty : ∀ key : Text, d.live.table.rollups[key]? = none := fun key => by
    rw [h.table]
    exact Std.ExtTreeMap.getElem?_empty
  have hcut : d.live.table.rollupCutoffUs = none := by
    rw [h.table]
    rfl
  have hconfig := h.config
  simp only [TableConfig.validate, ensure_bind, validateDurations, ensure_ok] at hconfig
  obtain ⟨-, -, hages, -, hnodup, -⟩ := hconfig
  refine ⟨⟨hnodup, fun age ha => hages age ?_, by simp [hcut], ⟨fun b _ => ?_, ?_⟩, ?_, ?_, ?_, ?_⟩,
    ?_, ?_, ?_⟩
  · simp [Option.mem_def.mp ha]
  · simp only [hempty, Exact, hcommitted]
    rfl
  · simp [hempty]
  · simp [h.raw, hcommitted]
  · simp [h.raw]
  · simp [hcommitted]
  · simp [hcommitted]
  · simp [Before, hcommitted]
  · rw [h.log, h.root]
    rfl
  · simp [h.pending]

theorem inv_step (hF : Ordered F) {d d' : Db F} (h : Inv limits d)
    (hs : Step limits d d') : Inv limits d' := by
  cases hs with
  | commit ho ha => exact h.commit hF (sound_direct ho) ha
  | capture hp =>
    refine ⟨h.good, h.before, rfl, ?_⟩
    simp only [List.mem_cons]
    rintro q (rfl | hq)
    · exact ⟨hp.barrier.le, fun _ => fresh_captured h.good hp⟩
    · exact h.pending q hq
  | create hp hb hseq ha =>
    refine h.commit hF (fun _ => ?_) ha
    exact ((h.pending _ hp).2 hseq.symm).backfill hF h.good hb
  | checkpoint n hn =>
    refine ⟨h.good, h.before, ?_, h.pending⟩
    have hreplay := h.replay
    rw [← List.take_append_drop n d.log, List.foldlM_append, hn] at hreplay
    exact hreplay
  | retain now others hnow hlog =>
    unfold retention
    dsimp only
    split
    · refine ⟨good_retained hnow h.good, h.before, by rw [hlog]; rfl, fun p hp => ?_⟩
      obtain ⟨hle, hfresh⟩ := h.pending p hp
      exact ⟨hle, fun he => (hfresh he).retained⟩
    · exact ⟨h.good, h.before, by rw [hlog]; rfl, h.pending⟩
  | reopen hr =>
    obtain rfl := Except.ok.inj (hr.symm.trans h.replay)
    exact ⟨h.good, h.before, h.replay, by simp⟩

/-- In every run, a bucket of an active width above both cutoffs is stored exactly when it has
committed rows, with their figures. -/
theorem rollups_exact (hF : Ordered F) {d : Db F}
    (h : (machine F limits).Reachable d) :
    (∀ b : Bucket, b.widthUs ∈ d.live.table.config.rollupWidthsUs →
      (∀ cutoff ∈ d.live.table.cutoffUs, cutoff ≤ b.startUs) →
      (∀ cutoff ∈ d.live.table.rollupCutoffUs, cutoff < b.startUs + b.widthUs) →
      Exact b (b.rows d.live.committed) d.live.table.rollups[b.key]? ∧
      ∀ (p : Pending F) (out : Map (RollupRow F)), Captured d.live p → p.widthUs = b.widthUs →
        p.segments.foldlM (aggregateWidth p.widthUs p.cutoffUs p.byteBudget) ∅ = .ok out →
        out[b.key]?.map figures = d.live.table.rollups[b.key]?.map figures) ∧
    (∀ (key : Text) (agg : RollupRow F), d.live.table.rollups[key]? = some agg →
      validateRollup key agg = .ok ()) ∧
    (d.live.committed.map rowKey).Nodup := by
  have hinv : Inv limits d := h.invariant (fun _ => inv_created) fun _ _ _ => inv_step hF
  have hg := hinv.good
  have hnodup : (d.live.committed.map rowKey).Nodup := by
    refine List.Nodup.of_map Prod.snd ?_
    rw [List.map_map]
    exact hg.distinct
  refine ⟨fun b hw hc hrc => ?_, fun key agg hk => (hg.tracks.built key agg hk).1.validate hF,
    hnodup⟩
  have hexact := hg.tracks.agree b ⟨hw, hc, hrc⟩
  refine ⟨hexact, fun p out hp hpw hout => ?_⟩
  have hfresh := fresh_captured hg hp
  have hback := tracks_backfill hF hp.width
    (fun r hr => hg.admitted r (hfresh.subset r hr)) hout
  have hout := (hback.agree b ⟨hpw.symm, by rwa [hp.cutoff]⟩).perm
    (rows_perm_of_above (hpw ▸ hp.width) hc hfresh.raw)
  refine hout.figures_eq hexact fun r hr r' hr' he => ?_
  exact List.inj_on_of_nodup_map hnodup (Bucket.mem_rows.mp hr).1 (Bucket.mem_rows.mp hr').1 he

-- A table with an aggregate created over its rows

instance : F64 Int where
  isFinite _ := true
  add := (· + ·)
  min := min
  max := max
  le a b := decide (a ≤ b)
  text := Json.int

theorem ordered_int : Ordered Int :=
  ⟨fun _ _ => rfl, fun _ _ => rfl, fun _ _ => decide_eq_true_iff⟩

def smallLimits : Limits := ⟨100, 100000⟩

def created : Source Int where
  name := "t".toList
  table := emptyTable ⟨1, 100, none, some 50, none, [10], some 200, none⟩ 1
  aggregates := ∅
  raw := []
  committed := []
  sequence := 1

def rowAt (timestampUs value : Int) : Row Int := ⟨timestampUs, "a".toList, "s".toList, value, ∅⟩

/-- Three rows of one bucket, the earliest of them last. -/
def group : Operation Int := .append [⟨"t".toList, [rowAt 12 5, rowAt 17 3, rowAt 11 4]⟩]

def orElse (x : Except String α) (d : α) : α := x.toOption.getD d

theorem ok_orElse {x : Except String α} {d : α} (h : x.toOption.isSome = true) :
    x = .ok (orElse x d) := by
  cases x with
  | error e => cases h
  | ok a => rfl

def appended : Source Int := orElse (applyRecord smallLimits created group) created

def minutes : Pending Int where
  name := "m".toList
  widthUs := 60
  barrier := 2
  cutoffUs := none
  segments := [appended.raw]
  existing := ∅
  byteBudget := 100000

def backfilled : Map (RollupRow Int) := orElse minutes.backfill ∅

def aggregated : Source Int :=
  orElse (applyRecord smallLimits appended
    (minutes.operation appended.name (appended.sequence + 1) backfilled)) appended

def aggregatedDb : Db Int where
  live := aggregated
  root := appended
  log := [minutes.operation appended.name (appended.sequence + 1) backfilled]
  pending := [minutes]

theorem reachable_aggregated : (machine Int smallLimits).Reachable aggregatedDb := by
  have hinit : (machine Int smallLimits).Reachable ⟨created, created, [], []⟩ :=
    .init ⟨rfl, rfl, rfl, rfl, by simp [created], rfl, rfl, rfl⟩
  have happend : applyRecord smallLimits created group = .ok appended :=
    ok_orElse (by decide +kernel)
  have hdirect : group.Direct created.name := trivial
  have hgroup := hinit.step (a := ()) (Step.commit hdirect happend)
  have hcaptured : Captured appended minutes := by
    refine ⟨by decide, ?_, ?_, by simp [minutes], ?_⟩
    · decide +kernel
    · decide +kernel
    · have hnew : minutes.widthUs ∉ appended.table.config.rollupWidthsUs := by decide +kernel
      rw [if_neg hnew]
      rfl
  have hcapture := hgroup.step (a := ()) (Step.capture hcaptured)
  have hbackfill : minutes.backfill = .ok backfilled := ok_orElse (by decide +kernel)
  have hcreate : applyRecord smallLimits appended
      (minutes.operation appended.name (appended.sequence + 1) backfilled) = .ok aggregated :=
    ok_orElse (by decide +kernel)
  exact hcapture.step (a := ())
    (Step.create List.mem_cons_self hbackfill (by decide +kernel) hcreate)

/-- The bucket of the new width that all three rows fall in. -/
def minute : Bucket := bucketOf 60 (rowAt 12 5)

theorem aggregated_stored : ∃ d : Db Int, (machine Int smallLimits).Reachable d ∧
    d.live.table.config.rollupWidthsUs = [10, 60] ∧ d.live.table.cutoffUs = none ∧
    d.live.table.rollupCutoffUs = none ∧
    ∃ agg, d.live.table.rollups[minute.key]? = some agg ∧
      (agg.count, agg.min, agg.max, agg.first, agg.last) = (3, 3, 5, 4, 3) := by
  have hfigures : (aggregatedDb.live.table.rollups[minute.key]?.any fun agg =>
      (agg.count, agg.min, agg.max, agg.first, agg.last) = (3, 3, 5, 4, 3)) = true := by
    decide +kernel
  obtain ⟨agg, hagg, hfig⟩ := (Option.any_eq_true _ _).mp hfigures
  exact ⟨aggregatedDb, reachable_aggregated, by decide +kernel, by decide +kernel,
    by decide +kernel, agg, hagg, of_decide_eq_true hfig⟩

theorem rollups_exact_aggregated :
    ∃ d : Db Int, (machine Int smallLimits).Reachable d ∧
      ∃ agg, d.live.table.rollups[minute.key]? = some agg ∧
        (agg.count, agg.min, agg.max, agg.first, agg.last) = (3, 3, 5, 4, 3) ∧
        Summarises minute (minute.rows d.live.committed) agg ∧
        validateRollup minute.key agg = .ok () := by
  obtain ⟨d, hd, hwidths, hcut, hrcut, agg, hagg, hfig⟩ := aggregated_stored
  obtain ⟨hexact, hvalid, -⟩ := rollups_exact ordered_int hd
  have hin : minute.widthUs ∈ d.live.table.config.rollupWidthsUs := by
    rw [hwidths]
    decide
  obtain ⟨hb, -⟩ := hexact minute hin (by simp [hcut]) (by simp [hrcut])
  exact ⟨d, hd, agg, hagg, hfig, hb.summarises hagg, hvalid _ agg hagg⟩

end Varve.Rollup
