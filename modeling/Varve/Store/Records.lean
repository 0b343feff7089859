import Varve.Store.Machine
import Varve.Rollup.Safety

/-!
# What records and files keep

A record leaves the segments, cutoffs and layout of every table as they are and adds rows under its
own sequence, so that installing a checkpoint and replaying the records after it can be exchanged.
-/

namespace Varve.Store

open Engine
open Result (bind_ok ensure_bind ensure_ok)
open Rollup (above)

variable {F : Type} [F64 F] [DecidableEq F]
variable {limits : Rollup.Limits} {files files' : Files F}

-- Files

/-- The segment's file is there, and is what the descriptor says. -/
def Held (files : Files F) (config : TableConfig) (seg : Segment) : Prop :=
  ∃ rows, files[seg.id]? = some rows ∧ Describes config seg rows

def Extends (files files' : Files F) : Prop :=
  ∀ (t : Text) (rows : List (StoredRow F)), files[t]? = some rows → files'[t]? = some rows

section
omit [F64 F] [DecidableEq F]

theorem Extends.refl (files : Files F) : Extends files files := fun _ _ h => h

theorem Extends.trans {a b c : Files F} (h : Extends a b) (h' : Extends b c) : Extends a c :=
  fun t rows ht => h' t rows (h t rows ht)

theorem Held.extends {config : TableConfig} {seg : Segment}
    (h : Held files config seg) (he : Extends files files') : Held files' config seg := by
  obtain ⟨rows, hr, hd⟩ := h
  exact ⟨rows, he _ _ hr, hd⟩

end

structure SameLayout (a b : TableConfig) : Prop where
  shards : a.shards = b.shards
  windowUs : a.windowUs = b.windowUs

section
omit [F64 F] [DecidableEq F]

theorem SameLayout.partitionKey {a b : TableConfig} (h : SameLayout a b) (r : StoredRow F) :
    partitionKey a r = partitionKey b r := by
  simp only [Engine.partitionKey, h.shards, h.windowUs]

theorem SameLayout.held {a b : TableConfig} {seg : Segment} (h : SameLayout a b)
    (hs : Held files a seg) : Held files b seg := by
  obtain ⟨rows, hr, hd⟩ := hs
  exact ⟨rows, hr, { hd with keys := fun r hm => by rw [← h.partitionKey, hd.keys r hm] }⟩

theorem segmentRows_extends {segments : List Segment}
    {config : TableConfig} (h : ∀ seg ∈ segments, Held files config seg)
    (he : Extends files files') : segmentRows files' segments = segmentRows files segments := by
  refine List.flatMap_congr fun seg hs => ?_
  obtain ⟨rows, hr, -⟩ := h seg hs
  rw [hr, he _ _ hr]

theorem readRawSegment_ok {admits : Segment → Except String Unit} {seg : Segment}
    {rows : List (StoredRow F)} (h : readRawSegment admits files seg = .ok rows) :
    files[seg.id]? = some rows := by
  obtain ⟨-, h⟩ := ensure_bind.mp h
  obtain ⟨_, -, h⟩ := bind_ok.mp h
  obtain ⟨rows', hr, h⟩ := bind_ok.mp h
  obtain ⟨-, h⟩ := ensure_bind.mp h
  obtain ⟨-, h⟩ := ensure_bind.mp h
  cases h
  exact context_ok.mp hr

end

omit [F64 F] in
theorem stage_ok {codec : Codec F} {w : Written F}
    (hd : codec.decode w.bytes = .ok w.rows) (h : stage codec files w = .ok files') :
    Extends files files' ∧ files'[w.descriptor.id]? = some w.rows := by
  rw [stage, hd, Result.ok_bind] at h
  split at h
  next existing he =>
    obtain ⟨hrows, h⟩ := ensure_bind.mp h
    cases h
    exact ⟨.refl _, hrows ▸ he⟩
  next hn =>
    cases h
    refine ⟨fun t rows ht => ?_, by simp⟩
    rw [Map.lookup_insert, if_neg]
    · exact ht
    · rintro rfl
      rw [hn] at ht
      cases ht

omit [F64 F] in
theorem stage_foldlM {codec : Codec F} {written : List (Written F)}
    (hd : ∀ w ∈ written, codec.decode w.bytes = .ok w.rows)
    (h : written.foldlM (stage codec) files = .ok files') :
    Extends files files' ∧ ∀ w ∈ written, files'[w.descriptor.id]? = some w.rows := by
  induction written generalizing files with
  | nil =>
    cases h
    exact ⟨.refl _, by simp⟩
  | cons w written ih =>
    obtain ⟨hd, hrest⟩ := List.forall_mem_cons.mp hd
    obtain ⟨mid, hm, h⟩ := bind_ok.mp h
    obtain ⟨he, hw⟩ := stage_ok hd hm
    obtain ⟨he', hall⟩ := ih hrest h
    exact ⟨he.trans he', List.forall_mem_cons.mpr ⟨he' _ _ hw, hall⟩⟩

omit [F64 F] [DecidableEq F] in
theorem segmentRows_written {written : List (Written F)}
    (h : ∀ w ∈ written, files[w.descriptor.id]? = some w.rows) :
    segmentRows files (written.map Written.descriptor) = written.flatMap Written.rows := by
  rw [segmentRows, List.flatMap_map]
  refine List.flatMap_congr fun w hw => ?_
  rw [h w hw, Option.getD_some]

/-- What a write adds: segments that hold the rows, and nothing taken away. -/
structure Added (files : Files F) (table : TableConfig) (rows : List (StoredRow F))
    (out : Outputs F) : Prop where
  extend : Extends files out.files
  perm : (segmentRows out.files out.segments).Perm rows
  held : ∀ seg ∈ out.segments, Held out.files table seg

omit [F64 F] in
theorem writePartitioned_ok {config : Config F} {table : TableConfig}
    {rows : List (StoredRow F)} {out : Outputs F}
    (h : writePartitioned config table files rows = .ok out) : Added files table rows out := by
  obtain ⟨written, hw, h⟩ := bind_ok.mp h
  obtain ⟨files', hf, h⟩ := bind_ok.mp h
  cases h
  obtain ⟨hperm, hsound⟩ := writePartitionedRows_ok config.segmentRows_pos hw
  obtain ⟨he, hfiles⟩ := stage_foldlM (fun w hw => (hsound w hw).decodes) hf
  refine ⟨he, ?_, ?_⟩
  · rw [segmentRows_written hfiles]
    exact hperm
  · intro seg hs
    obtain ⟨w, hw, rfl⟩ := List.mem_map.mp hs
    exact ⟨w.rows, hfiles w hw, (hsound w hw).describes⟩

-- Records

structure Keeps (t t' : Table F) : Prop where
  segments : t'.segments = t.segments
  cutoff : t'.cutoffUs = t.cutoffUs
  rollupCutoff : t'.rollupCutoffUs = t.rollupCutoffUs
  layout : SameLayout t.config t'.config

omit [F64 F] [DecidableEq F] in
theorem Keeps.refl (t : Table F) : Keeps t t := ⟨rfl, rfl, rfl, rfl, rfl⟩

omit [F64 F] [DecidableEq F] in
theorem Keeps.trans {a b c : Table F} (h : Keeps a b) (h' : Keeps b c) : Keeps a c :=
  ⟨h'.segments.trans h.segments, h'.cutoff.trans h.cutoff, h'.rollupCutoff.trans h.rollupCutoff,
    h.layout.shards.trans h'.layout.shards, h.layout.windowUs.trans h'.layout.windowUs⟩

/-- A change to a table that a record makes: it does not look at the segments. -/
structure Blind (f : Table F → Except String (Table F)) : Prop where
  keeps : ∀ t t', f t = .ok t' → Keeps t t'
  add : ∀ t t' segments, f t = .ok t' → f (addSegments segments t) = .ok (addSegments segments t')

omit [DecidableEq F] in
theorem blind_addRows (limits : Rollup.Limits) (sequence ordinal : Nat) (rows : List (Row F)) :
    Blind (addRows limits sequence ordinal rows) := by
  refine ⟨?_, ?_⟩
  · intro t t' h
    obtain ⟨-, -, h⟩ := bind_ok.mp h
    obtain ⟨updates, -, h⟩ := bind_ok.mp h
    cases h
    exact ⟨rfl, rfl, rfl, rfl, rfl⟩
  · intro t t' segments h
    obtain ⟨⟨⟩, hr, h⟩ := bind_ok.mp h
    obtain ⟨updates, hu, h⟩ := bind_ok.mp h
    cases h
    exact bind_ok.mpr ⟨(), hr, bind_ok.mpr ⟨updates, hu, rfl⟩⟩

section
omit [F64 F] [DecidableEq F]

theorem blind_setPolicy (policy : LifecyclePolicy) : Blind (F := F) (Rollup.setPolicy policy) := by
  refine ⟨?_, ?_⟩
  · intro t t' h
    obtain ⟨-, -, h⟩ := bind_ok.mp h
    obtain ⟨-, h⟩ := ensure_bind.mp h
    obtain ⟨-, -, h⟩ := bind_ok.mp h
    cases h
    exact ⟨rfl, rfl, rfl, rfl, rfl⟩
  · intro t t' segments h
    obtain ⟨⟨⟩, hp, h⟩ := bind_ok.mp h
    obtain ⟨he, h⟩ := ensure_bind.mp h
    obtain ⟨⟨⟩, hc, h⟩ := bind_ok.mp h
    cases h
    exact bind_ok.mpr ⟨(), hp, ensure_bind.mpr ⟨he, bind_ok.mpr ⟨(), hc, rfl⟩⟩⟩

theorem layout_activateWidth {width : Int} {c c' : TableConfig}
    (h : Rollup.activateWidth width c = .ok c') : SameLayout c c' := by
  unfold Rollup.activateWidth at h
  split at h
  · cases h
    exact ⟨rfl, rfl⟩
  · obtain ⟨-, h⟩ := ensure_bind.mp h
    cases h
    exact ⟨rfl, rfl⟩

theorem blind_activate (width : Int) (backfill : Map (RollupRow F)) :
    Blind (Rollup.activate width backfill) := by
  refine ⟨?_, ?_⟩
  · intro t t' h
    obtain ⟨config, hc, h⟩ := bind_ok.mp h
    obtain ⟨-, h⟩ := ensure_bind.mp h
    cases h
    exact ⟨rfl, rfl, rfl, layout_activateWidth hc⟩
  · intro t t' segments h
    obtain ⟨config, hc, h⟩ := bind_ok.mp h
    obtain ⟨he, h⟩ := ensure_bind.mp h
    cases h
    exact bind_ok.mpr ⟨config, hc, ensure_bind.mpr ⟨he, rfl⟩⟩

theorem deactivate_addSegments (width : Int) (shared : Bool) (segments : List Segment)
    (t : Table F) : Rollup.deactivate width shared (addSegments segments t) =
      addSegments segments (Rollup.deactivate width shared t) := by
  unfold Rollup.deactivate
  by_cases h : !shared ∧ width ∉ (t.creationConfig.getD t.config).rollupWidthsUs
  · rw [if_pos h]
    exact if_pos h
  · rw [if_neg h]
    exact if_neg h

theorem blind_dropWidth (aggregate : ContinuousAggregate) (aggregates : Map ContinuousAggregate) :
    Blind (F := F) (dropWidth aggregate aggregates) := by
  refine ⟨?_, ?_⟩
  · intro t t' h
    cases h
    unfold Rollup.deactivate
    split
    · exact ⟨rfl, rfl, rfl, rfl, rfl⟩
    · exact .refl t
  · intro t t' segments h
    cases h
    exact congrArg Except.ok (deactivate_addSegments _ _ _ _)

end

/-- What becomes of the tables of a catalog when records are applied. -/
structure Grows (c c' : Manifest F) : Prop where
  checkpoint : c'.checkpointSequence = c.checkpointSequence
  old : ∀ (name : Text) (t : Table F), c.tables[name]? = some t →
    ∃ t', c'.tables[name]? = some t' ∧ Keeps t t'
  fresh : ∀ (name : Text) (t' : Table F), c.tables[name]? = none → c'.tables[name]? = some t' →
    t'.segments = [] ∧ t'.cutoffUs = none ∧ t'.rollupCutoffUs = none

variable {name : Text} {missing : String} {f : Table F → Except String (Table F)}
  {c c' : Manifest F} {s s' : Live F}

section
omit [F64 F] [DecidableEq F]

theorem Grows.refl (c : Manifest F) : Grows c c :=
  ⟨rfl, fun _ t h => ⟨t, h, .refl t⟩, fun _ _ hn h => by rw [hn] at h; cases h⟩

theorem Grows.trans {a b c : Manifest F} (h : Grows a b) (h' : Grows b c) : Grows a c := by
  refine ⟨h'.checkpoint.trans h.checkpoint, fun name t ht => ?_, fun name t'' hn ht => ?_⟩
  · obtain ⟨t', ht', hk⟩ := h.old name t ht
    obtain ⟨t'', ht'', hk'⟩ := h'.old name t' ht'
    exact ⟨t'', ht'', hk.trans hk'⟩
  · cases hb : b.tables[name]? with
    | none => exact h'.fresh name t'' hb ht
    | some t' =>
      obtain ⟨t₂, ht₂, hk⟩ := h'.old name t' hb
      obtain rfl := Option.some.inj (ht₂.symm.trans ht)
      rw [hk.segments, hk.cutoff, hk.rollupCutoff]
      exact h.fresh name t' hn hb

theorem modifyTable_ok
    (h : modifyTable name missing f c = .ok c') :
    ∃ t t', c.tables[name]? = some t ∧ f t = .ok t' ∧
      c' = { c with tables := c.tables.insert name t' } := by
  obtain ⟨t, ht, h⟩ := bind_ok.mp h
  obtain ⟨t', hf, h⟩ := bind_ok.mp h
  cases h
  exact ⟨t, t', context_ok.mp ht, hf, rfl⟩

theorem grows_insert {t t' : Table F}
    (ht : c.tables[name]? = some t) (hk : Keeps t t') :
    Grows c { c with tables := c.tables.insert name t' } := by
  refine ⟨rfl, fun name' s hs => ?_, fun name' s hn hs => ?_⟩
  · simp only [Map.lookup_insert]
    by_cases he : name = name'
    · subst he
      obtain rfl := Option.some.inj (ht.symm.trans hs)
      exact ⟨t', if_pos rfl, hk⟩
    · exact ⟨s, by rw [if_neg he, hs], .refl s⟩
  · rw [Map.lookup_insert, if_neg, hn] at hs
    · cases hs
    · rintro rfl
      rw [ht] at hn
      cases hn

theorem grows_modifyTable
    (hf : Blind f)
    (h : modifyTable name missing f c = .ok c') : Grows c c' := by
  obtain ⟨t, t', ht, hft, rfl⟩ := modifyTable_ok h
  exact grows_insert ht (hf.keeps t t' hft)

end

/-- The rows of one record: new ones, each admitted by its table. -/
structure Appended (s s' : Live F) (sequence : Nat) (new : List (Text × StoredRow F)) : Prop where
  hot : s'.hot = s.hot ++ new
  committed : s'.committed = s.committed ++ new
  sequence : ∀ p ∈ new, p.2.sequence = sequence
  admitted : ∀ p ∈ new, ∃ t, s.catalog.tables[p.1]? = some t ∧ above t.cutoffUs p.2 = true

omit [DecidableEq F] in
theorem addRows_above {sequence ordinal : Nat} {rows : List (Row F)}
    {t t' : Table F} (h : addRows limits sequence ordinal rows t = .ok t') :
    ∀ row ∈ rows, ∀ cutoff ∈ t.cutoffUs, cutoff ≤ row.timestampUs := by
  obtain ⟨⟨⟩, hr, -⟩ := bind_ok.mp h
  intro row hm
  obtain ⟨-, -, h⟩ := bind_ok.mp (Result.forM_ok.mp hr row hm)
  obtain ⟨-, -, h⟩ := bind_ok.mp h
  exact ensure_ok.mp h

omit [DecidableEq F] in
theorem appendItems_ok {sequence ordinal : Nat}
    {items : List (Rollup.AppendItem F)}
    (h : appendItems limits sequence ordinal items s = .ok s') :
    Grows s.catalog s'.catalog ∧ s'.sequence = s.sequence ∧
      ∃ new, Appended s s' sequence new ∧ (∀ p ∈ new, ordinal ≤ p.2.ordinal) ∧
        (new.map fun p => (p.2.sequence, p.2.ordinal)).Nodup := by
  induction items generalizing ordinal s with
  | nil =>
    cases h
    exact ⟨.refl _, rfl, [], ⟨by simp, by simp, by simp, by simp⟩, by simp, by simp⟩
  | cons item items ih =>
    obtain ⟨-, h⟩ := ensure_bind.mp h
    obtain ⟨catalog, hc, h⟩ := bind_ok.mp h
    obtain ⟨hg, hs, new, hnew, hlow, hd⟩ := ih h
    obtain ⟨t, t', ht, hadd, hcat⟩ := modifyTable_ok hc
    have hgrow := grows_modifyTable (blind_addRows _ _ _ _) hc
    have htag : ∀ p ∈ tagged item sequence ordinal, p.1 = item.table ∧ p.2.row ∈ item.rows ∧
        p.2.sequence = sequence ∧ ordinal ≤ p.2.ordinal ∧
        p.2.ordinal < ordinal + item.rows.length := by
      intro p hp
      obtain ⟨r, hr, rfl⟩ := List.mem_map.mp hp
      exact ⟨rfl, Rollup.mem_stored hr⟩
    refine ⟨hgrow.trans hg, hs, tagged item sequence ordinal ++ new, ⟨?_, ?_, ?_, ?_⟩, ?_, ?_⟩
    · rw [hnew.hot, List.append_assoc]
    · rw [hnew.committed, List.append_assoc]
    · intro p hp
      rcases List.mem_append.mp hp with hp | hp
      · exact (htag p hp).2.2.1
      · exact hnew.sequence p hp
    · intro p hp
      rcases List.mem_append.mp hp with hp | hp
      · obtain ⟨hname, hrow, -⟩ := htag p hp
        refine ⟨t, hname ▸ ht, ?_⟩
        simpa [above] using addRows_above hadd p.2.row hrow
      · obtain ⟨u, hu, hab⟩ := hnew.admitted p hp
        cases hold : s.catalog.tables[p.1]? with
        | none =>
          obtain ⟨-, hcut, -⟩ := hgrow.fresh p.1 u hold hu
          rw [hcat, Map.lookup_insert, if_neg, hold] at hu
          · cases hu
          · rintro he
            rw [← he, ht] at hold
            cases hold
        | some v =>
          obtain ⟨u', hu', hk⟩ := hgrow.old p.1 v hold
          obtain rfl := Option.some.inj (hu'.symm.trans hu)
          exact ⟨v, rfl, hk.cutoff ▸ hab⟩
    · intro p hp
      rcases List.mem_append.mp hp with hp | hp
      · exact (htag p hp).2.2.2.1
      · exact (Nat.le_add_right _ _).trans (hlow p hp)
    · rw [List.map_append, List.nodup_append]
      refine ⟨?_, hd, ?_⟩
      · rw [tagged, List.map_map]
        exact Rollup.stored_distinct
      · intro a ha b hb he
        obtain ⟨p, hp, rfl⟩ := List.mem_map.mp ha
        obtain ⟨q, hq, rfl⟩ := List.mem_map.mp hb
        have hlt := (htag p hp).2.2.2.2
        have hle := hlow q hq
        have := (Prod.mk.inj he).2
        omega

structure Advances (s s' : Live F) (new : List (Text × StoredRow F)) : Prop where
  sequence : s'.sequence = s.sequence + 1
  grows : Grows s.catalog s'.catalog
  rows : Appended s s' (s.sequence + 1) new
  distinct : (new.map fun p => (p.2.sequence, p.2.ordinal)).Nodup

omit [F64 F] [DecidableEq F] in
theorem advances_catalog (h : Grows s.catalog c) :
    Advances s { s with catalog := c, sequence := s.sequence + 1 } [] :=
  ⟨rfl, h, ⟨by simp, by simp, by simp, by simp⟩, by simp⟩

omit [DecidableEq F] in
theorem applyRecord_advances {o : Operation F}
    (h : applyRecord limits s o = .ok s') : ∃ new, Advances s s' new := by
  obtain ⟨mid, hm, h⟩ := bind_ok.mp h
  cases h
  cases o with
  | createTable name config =>
    obtain ⟨-, -, hm⟩ := bind_ok.mp hm
    obtain ⟨-, -, hm⟩ := bind_ok.mp hm
    obtain ⟨⟨hn, -⟩, hm⟩ := ensure_bind.mp hm
    cases hm
    rw [Option.isNone_iff_eq_none] at hn
    refine ⟨[], advances_catalog ⟨rfl, fun name' t ht => ?_, fun name' t hno ht => ?_⟩⟩
    · refine ⟨t, ?_, .refl t⟩
      rw [Map.lookup_insert, if_neg, ht]
      rintro rfl
      rw [hn] at ht
      cases ht
    · rw [Map.lookup_insert] at ht
      split at ht
      · cases ht
        exact ⟨rfl, rfl, rfl⟩
      · rw [hno] at ht
        cases ht
  | append items =>
    obtain ⟨hg, hs, new, hnew, -, hd⟩ := appendItems_ok hm
    exact ⟨new, rfl, hg, ⟨hnew.hot, hnew.committed, hnew.sequence, hnew.admitted⟩, hd⟩
  | setPolicy table policy =>
    obtain ⟨c, hc, hm⟩ := bind_ok.mp hm
    cases hm
    exact ⟨[], advances_catalog (grows_modifyTable (blind_setPolicy _) hc)⟩
  | createContinuousAggregate aggregate backfill =>
    obtain ⟨-, -, hm⟩ := bind_ok.mp hm
    obtain ⟨-, hm⟩ := ensure_bind.mp hm
    obtain ⟨-, hm⟩ := ensure_bind.mp hm
    obtain ⟨-, hm⟩ := ensure_bind.mp hm
    obtain ⟨c, hc, hm⟩ := bind_ok.mp hm
    cases hm
    have hg := grows_modifyTable (blind_activate _ _) hc
    exact ⟨[], advances_catalog ⟨hg.checkpoint, hg.old, hg.fresh⟩⟩
  | dropContinuousAggregate name =>
    obtain ⟨aggregate, -, hm⟩ := bind_ok.mp hm
    obtain ⟨c, hc, hm⟩ := bind_ok.mp hm
    cases hm
    have hg := grows_modifyTable (blind_dropWidth _ _) hc
    exact ⟨[], advances_catalog ⟨hg.checkpoint, hg.old, hg.fresh⟩⟩
  | other =>
    cases hm
    exact ⟨[], advances_catalog (.refl _)⟩

/-- What a replay does to the rows and tables it starts from. -/
structure Replayed (s s' : Live F) (new : List (Text × StoredRow F)) : Prop where
  sequence : s.sequence ≤ s'.sequence
  grows : Grows s.catalog s'.catalog
  hot : s'.hot = s.hot ++ new
  later : ∀ p ∈ new, s.sequence < p.2.sequence ∧ p.2.sequence ≤ s'.sequence
  known : ∀ p ∈ new, ∃ t, s'.catalog.tables[p.1]? = some t

omit [DecidableEq F] in
theorem replay_ok {log : List (Operation F)}
    (h : log.foldlM (applyRecord limits) s = .ok s') :
    s'.sequence = s.sequence + log.length ∧ ∃ new, Replayed s s' new := by
  induction log generalizing s with
  | nil =>
    cases h
    exact ⟨rfl, [], le_refl _, .refl _, by simp, by simp, by simp⟩
  | cons o log ih =>
    obtain ⟨mid, hm, h⟩ := bind_ok.mp h
    obtain ⟨rows, ha⟩ := applyRecord_advances hm
    obtain ⟨hlen, new, hr⟩ := ih h
    have hseq := ha.sequence
    have hle := hr.sequence
    refine ⟨by rw [hlen, hseq, List.length_cons]; omega, rows ++ new, by omega,
      ha.grows.trans hr.grows, ?_, ?_, ?_⟩
    · rw [hr.hot, ha.rows.hot, List.append_assoc]
    · intro p hp
      rcases List.mem_append.mp hp with hp | hp
      · rw [ha.rows.sequence p hp]
        omega
      · have := hr.later p hp
        omega
    · intro p hp
      rcases List.mem_append.mp hp with hp | hp
      · obtain ⟨t, ht, -⟩ := ha.rows.admitted p hp
        obtain ⟨t', ht', -⟩ := (ha.grows.trans hr.grows).old _ t ht
        exact ⟨t', ht'⟩
      · exact hr.known p hp

-- Installing a checkpoint

section
variable {outputs : Map (List Segment)} {n : Nat}

section
omit [F64 F] [DecidableEq F]

@[simp] theorem installCatalog_lookup :
    (installCatalog outputs n c).tables[name]? =
      c.tables[name]?.map (addSegments (outputs[name]?.getD [])) :=
  Std.ExtTreeMap.getElem?_map

theorem installCatalog_insert {t : Table F} :
    installCatalog outputs n { c with tables := c.tables.insert name t } =
      { installCatalog outputs n c with
        tables := (installCatalog outputs n c).tables.insert name
          (addSegments (outputs[name]?.getD []) t) } := by
  have htables : (c.tables.insert name t).map (fun name t =>
      addSegments (outputs[name]?.getD []) t) =
      (c.tables.map fun name t => addSegments (outputs[name]?.getD []) t).insert name
        (addSegments (outputs[name]?.getD []) t) := by
    refine Std.ExtTreeMap.ext_getElem? fun a => ?_
    rw [Std.ExtTreeMap.getElem?_map, Map.lookup_insert, Map.lookup_insert,
      Std.ExtTreeMap.getElem?_map]
    split
    next h =>
      subst h
      rfl
    next => rfl
  exact congrArg (fun tables => { c with checkpointSequence := n, tables := tables }) htables

theorem modifyTable_install
    (hf : Blind f)
    (h : modifyTable name missing f c = .ok c') :
    modifyTable name missing f (installCatalog outputs n c) =
      .ok (installCatalog outputs n c') := by
  obtain ⟨t, t', ht, hft, rfl⟩ := modifyTable_ok h
  have hlook : (installCatalog outputs n c).tables[name]? =
      some (addSegments (outputs[name]?.getD []) t) := by
    rw [installCatalog_lookup, ht, Option.map_some]
  refine bind_ok.mpr ⟨_, context_ok.mpr hlook, ?_⟩
  refine bind_ok.mpr ⟨_, hf.add t t' _ hft, ?_⟩
  rw [installCatalog_insert]

end

section
omit [DecidableEq F]

theorem appendItems_install {sequence ordinal : Nat}
    {items : List (Rollup.AppendItem F)} (hn : n < sequence)
    (h : appendItems limits sequence ordinal items s = .ok s') :
    appendItems limits sequence ordinal items (install outputs n s) =
      .ok (install outputs n s') := by
  induction items generalizing ordinal s with
  | nil =>
    cases h
    rfl
  | cons item items ih =>
    obtain ⟨hb, h⟩ := ensure_bind.mp h
    obtain ⟨catalog, hc, h⟩ := bind_ok.mp h
    refine ensure_bind.mpr ⟨hb, ?_⟩
    refine bind_ok.mpr ⟨_, modifyTable_install (blind_addRows _ _ _ _) hc, ?_⟩
    rw [← ih h]
    have hkeep : (tagged item sequence ordinal).filter (fun p => n < p.2.sequence) =
        tagged item sequence ordinal := by
      refine List.filter_eq_self.mpr fun p hp => ?_
      obtain ⟨r, hr, rfl⟩ := List.mem_map.mp hp
      simpa [(Rollup.mem_stored hr).2.1] using hn
    simp only [install, List.filter_append, hkeep]

theorem applyRecord_install {o : Operation F}
    (hn : n ≤ s.sequence)
    (ho : ∀ name : Text, s.catalog.tables[name]? = none → outputs[name]? = none)
    (h : applyRecord limits s o = .ok s') :
    applyRecord limits (install outputs n s) o = .ok (install outputs n s') := by
  obtain ⟨mid, hm, h⟩ := bind_ok.mp h
  cases h
  refine bind_ok.mpr ⟨install outputs n mid, ?_, rfl⟩
  cases o with
  | createTable name config =>
    obtain ⟨⟨⟩, hv, hm⟩ := bind_ok.mp hm
    obtain ⟨⟨⟩, hc, hm⟩ := bind_ok.mp hm
    obtain ⟨⟨hnone, hrest⟩, hm⟩ := ensure_bind.mp hm
    cases hm
    refine bind_ok.mpr ⟨(), hv, bind_ok.mpr ⟨(), hc, ensure_bind.mpr ⟨⟨?_, hrest⟩, ?_⟩⟩⟩
    · rw [install, installCatalog_lookup, Option.isNone_iff_eq_none.mp hnone]
      rfl
    · have hseg : addSegments (outputs[name]?.getD []) (emptyTable (F := F) config
          (s.sequence + 1)) = emptyTable config (s.sequence + 1) := by
        rw [ho name (Option.isNone_iff_eq_none.mp hnone)]
        rfl
      simp only [install, installCatalog_insert, hseg]
  | append items => exact appendItems_install (Nat.lt_succ_of_le hn) hm
  | setPolicy table policy =>
    obtain ⟨c, hc, hm⟩ := bind_ok.mp hm
    cases hm
    exact bind_ok.mpr ⟨_, modifyTable_install (blind_setPolicy _) hc, rfl⟩
  | createContinuousAggregate aggregate backfill =>
    obtain ⟨⟨⟩, hv, hm⟩ := bind_ok.mp hm
    obtain ⟨hw, hm⟩ := ensure_bind.mp hm
    obtain ⟨ht, hm⟩ := ensure_bind.mp hm
    obtain ⟨hf, hm⟩ := ensure_bind.mp hm
    obtain ⟨c, hc, hm⟩ := bind_ok.mp hm
    cases hm
    refine bind_ok.mpr ⟨(), hv, ensure_bind.mpr ⟨hw, ensure_bind.mpr ⟨?_,
      ensure_bind.mpr ⟨hf, bind_ok.mpr ⟨_, modifyTable_install (blind_activate _ _) hc, rfl⟩⟩⟩⟩⟩
    rw [install, installCatalog_lookup, Option.isNone_iff_eq_none.mp ht]
    rfl
  | dropContinuousAggregate name =>
    obtain ⟨aggregate, ha, hm⟩ := bind_ok.mp hm
    obtain ⟨c, hc, hm⟩ := bind_ok.mp hm
    cases hm
    exact bind_ok.mpr ⟨aggregate, ha, bind_ok.mpr ⟨_, modifyTable_install (blind_dropWidth _ _) hc,
      rfl⟩⟩
  | other =>
    cases hm
    rfl

theorem replay_install {log : List (Operation F)}
    (hn : n ≤ s.sequence)
    (ho : ∀ name : Text, s.catalog.tables[name]? = none → outputs[name]? = none)
    (h : log.foldlM (applyRecord limits) s = .ok s') :
    log.foldlM (applyRecord limits) (install outputs n s) = .ok (install outputs n s') := by
  induction log generalizing s with
  | nil =>
    cases h
    rfl
  | cons o log ih =>
    obtain ⟨mid, hm, h⟩ := bind_ok.mp h
    obtain ⟨rows, ha⟩ := applyRecord_advances hm
    refine bind_ok.mpr ⟨_, applyRecord_install hn ho hm, ih ?_ (fun name hname => ?_) h⟩
    · rw [ha.sequence]
      omega
    · cases ht : s.catalog.tables[name]? with
      | none => exact ho name ht
      | some t =>
        obtain ⟨t', ht', -⟩ := ha.grows.old name t ht
        rw [ht'] at hname
        cases hname

end

end

end Varve.Store
