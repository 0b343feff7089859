import Varve.Store.Compaction

/-!
# Scans

A scan prunes segments by their descriptors and filters the rows of the rest.
-/

namespace Varve.Store

open Engine
open Result (bind_ok ensure_bind)
open Rollup (above)

variable {F : Type} [F64 F] [DecidableEq F] {config : Config F} {d : Db F}
  {adm : Admission}
variable {q : Request} {files : Files F} {table : TableConfig} {segments : List Segment}
  {start : Option Int} {rows : List (StoredRow F)} {name : Text}

omit [F64 F] [DecidableEq F] in
theorem matches_start {cutoff : Option Int} {r : StoredRow F} :
    q.Matches (q.start cutoff) r ↔ above cutoff r = true ∧ q.Matches q.startUs r := by
  have hstart : (∀ v ∈ q.start cutoff, v ≤ r.row.timestampUs) ↔
      (∀ v ∈ cutoff, v ≤ r.row.timestampUs) ∧ ∀ v ∈ q.startUs, v ≤ r.row.timestampUs := by
    unfold Request.start
    cases q.startUs <;> cases cutoff <;> simp [and_comm]
  simp only [Request.Matches, hstart, above, decide_eq_true_eq, and_assoc]

omit [F64 F] [DecidableEq F] in
theorem not_matches_of_pruned
    {seg : Segment} (hd : Describes table seg rows)
    (hk : ¬q.Keeps start table.shards seg) : ∀ r ∈ rows, ¬q.Matches start r := by
  rintro r hr ⟨hs, he, ht, hser⟩
  refine hk ⟨fun v hv => ?_, fun v hv => ?_, fun tenant htn series hsn => ?_⟩
  · have := hs v hv
    have := hd.max r hr
    omega
  · have := he v hv
    have := hd.min r hr
    omega
  · rw [← hd.shard hr, ht tenant htn, hser series hsn]

-- Reading

section
omit [F64 F] [DecidableEq F]

theorem decodedBytes_append (a b : List (StoredRow F)) :
    decodedBytes (a ++ b) = decodedBytes a + decodedBytes b := by
  simp [decodedBytes]

theorem pushRows_ok {limit : Nat} {output rows out : List (StoredRow F)}
    (h : pushRows adm limit output rows = .ok out) : out = output ++ rows := by
  induction rows generalizing output with
  | nil =>
    cases h
    rw [List.append_nil]
  | cons r rows ih =>
    obtain ⟨mid, hm, h⟩ := bind_ok.mp h
    obtain ⟨-, hm⟩ := ensure_bind.mp hm
    obtain ⟨_, -, hm⟩ := bind_ok.mp hm
    cases hm
    rw [ih h, List.append_assoc, List.singleton_append]

theorem pushRows_of_le {limit : Nat} {output rows : List (StoredRow F)}
    (hadm : ∀ n ≤ limit, adm.output n = .ok ()) (h : decodedBytes (output ++ rows) ≤ limit) :
    pushRows adm limit output rows = .ok (output ++ rows) := by
  induction rows generalizing output with
  | nil =>
    rw [List.append_nil]
    rfl
  | cons r rows ih =>
    rw [← List.singleton_append, ← List.append_assoc] at h ⊢
    have hle : decodedBytes output + r.row.estimatedBytes ≤ limit := by
      rw [decodedBytes_append, decodedBytes_append] at h
      have hone : decodedBytes [r] = r.row.estimatedBytes := by simp [decodedBytes]
      omega
    exact bind_ok.mpr ⟨_, ensure_bind.mpr ⟨hle, bind_ok.mpr ⟨_, hadm _ hle, rfl⟩⟩, ih h⟩

theorem readRawSegment_of_held {seg : Segment}
    (ha : adm.segment seg = .ok ()) (hf : files[seg.id]? = some rows)
    (hd : Describes table seg rows) : readRawSegment adm.segment files seg = .ok rows := by
  have hpos : 0 < seg.decodedBytes := by
    rw [hd.decoded]
    obtain ⟨r, rest, rfl⟩ := List.exists_cons_of_ne_nil hd.nonempty
    rw [List.map_cons, List.sum_cons, Row.estimatedBytes]
    omega
  refine ensure_bind.mpr ⟨hpos, bind_ok.mpr ⟨_, ha, bind_ok.mpr ⟨rows, context_ok.mpr hf, ?_⟩⟩⟩
  exact ensure_bind.mpr ⟨hd.count.symm, ensure_bind.mpr ⟨hd.decoded.symm, rfl⟩⟩

end

/-- The rows of a list of segments that a scan returns. -/
def matchingRows (files : Files F) (q : Request) (start : Option Int) (segments : List Segment) :
    List (StoredRow F) :=
  (segmentRows files segments).filter fun r => q.Matches start r

section
omit [F64 F] [DecidableEq F]

theorem matchingRows_cons {seg : Segment}
    (h : files[seg.id]? = some rows) :
    matchingRows files q start (seg :: segments) =
      (rows.filter fun r => q.Matches start r) ++ matchingRows files q start segments := by
  rw [matchingRows, segmentRows, List.flatMap_cons, h, Option.getD_some, List.filter_append]
  rfl

theorem scanSegments_ok
    {output out : List (StoredRow F)}
    (h : segments.foldlM (scanSegment config adm files q start) output = .ok out) :
    out = output ++ matchingRows files q start segments := by
  induction segments generalizing output with
  | nil =>
    cases h
    simp [matchingRows, segmentRows]
  | cons seg segments ih =>
    obtain ⟨mid, hm, h⟩ := bind_ok.mp h
    obtain ⟨-, hm⟩ := ensure_bind.mp hm
    obtain ⟨rows, hr, hm⟩ := bind_ok.mp hm
    rw [ih h, pushRows_ok hm, matchingRows_cons (readRawSegment_ok hr), List.append_assoc]

theorem scanSegments_of_le
    {output : List (StoredRow F)}
    (hheld : ∀ seg ∈ segments, Held files table seg)
    (hseg : ∀ seg ∈ segments, adm.segment seg = .ok ())
    (hout : ∀ n ≤ config.queryMaxOutputBytes, adm.output n = .ok ())
    (hfit : ∀ seg ∈ segments, seg.decodedBytes ≤ config.hotMaxBytes)
    (hle : decodedBytes (output ++ matchingRows files q start segments) ≤
      config.queryMaxOutputBytes) :
    segments.foldlM (scanSegment config adm files q start) output =
      .ok (output ++ matchingRows files q start segments) := by
  induction segments generalizing output with
  | nil =>
    rw [show matchingRows files q start [] = [] from rfl, List.append_nil]
    rfl
  | cons seg segments ih =>
    obtain ⟨⟨rows, hf, hd⟩, hrest⟩ := List.forall_mem_cons.mp hheld
    obtain ⟨hread, hseg⟩ := List.forall_mem_cons.mp hseg
    obtain ⟨hone, hfit⟩ := List.forall_mem_cons.mp hfit
    rw [matchingRows_cons hf, ← List.append_assoc] at hle ⊢
    have hpush : decodedBytes (output ++ rows.filter fun r => q.Matches start r) ≤
        config.queryMaxOutputBytes := by
      rw [decodedBytes_append] at hle
      omega
    exact bind_ok.mpr ⟨_, ensure_bind.mpr ⟨hone, bind_ok.mpr ⟨rows,
      readRawSegment_of_held hread hf hd, pushRows_of_le hout hpush⟩⟩, ih hrest hseg hfit hle⟩

theorem matchingRows_pruned
    (h : ∀ seg ∈ segments, Held files table seg) :
    matchingRows files q start (segments.filter fun seg => q.Keeps start table.shards seg) =
      matchingRows files q start segments := by
  induction segments with
  | nil => rfl
  | cons seg segments ih =>
    obtain ⟨⟨rows, hf, hd⟩, hrest⟩ := List.forall_mem_cons.mp h
    rw [matchingRows_cons hf, List.filter_cons]
    split
    next => rw [matchingRows_cons hf, ih hrest]
    next hk =>
      have hnone : (rows.filter fun r => q.Matches start r) = [] := by
        refine List.filter_eq_nil_iff.mpr fun r hr => ?_
        simpa using not_matches_of_pruned hd (by simpa using hk) r hr
      rw [hnone, List.nil_append, ih hrest]

end

-- Scans

/-- The committed rows of a table that a request asks for and retention has left, in order. -/
def Db.matching (d : Db F) (name : Text) (q : Request) : List (StoredRow F) :=
  sortRows ((rowsOf name d.live.committed).filter fun r =>
    above ((d.table name).bind Table.cutoffUs) r = true ∧ q.Matches q.startUs r)

omit [F64 F] [DecidableEq F] in
theorem rowsOf_distinct {rows : List (Text × StoredRow F)}
    (h : (rows.map fun p => (p.2.sequence, p.2.ordinal)).Nodup) (name : Text) :
    ((rowsOf name rows).map fun r => (r.sequence, r.ordinal)).Nodup := by
  rw [rowsOf, List.map_map]
  exact h.sublist (List.filter_sublist.map _)

omit [F64 F] [DecidableEq F] in
theorem sortRows_congr {a b : List (StoredRow F)} (h : a.Perm b)
    (hb : (b.map fun r => (r.sequence, r.ordinal)).Nodup) : sortRows a = sortRows b := by
  have hperm := ((sortRows_perm a).trans h).trans (sortRows_perm b).symm
  refine hperm.eq_of_pairwise (fun x y hx hy hxy hyx => ?_) (pairwise_sortRows a)
    (pairwise_sortRows b)
  have hkey : x.key = y.key := le_antisymm hxy hyx
  simp only [StoredRow.key, toLex_inj, Prod.mk.injEq] at hkey
  exact List.inj_on_of_nodup_map hb (h.subset ((sortRows_perm a).subset hx))
    ((sortRows_perm b).subset hy) (Prod.ext hkey.2.2.2.1 hkey.2.2.2.2)

section
omit [DecidableEq F]

theorem scanned_perm (h : Inv config d) {t : Table F} (ht : d.table name = some t)
    (q : Request) :
    ((rowsOf name d.live.hot).filter (fun r => q.Matches (q.start t.cutoffUs) r) ++
      matchingRows d.files q (q.start t.cutoffUs) t.segments).Perm
      ((rowsOf name d.live.committed).filter fun r =>
        above ((d.table name).bind Table.cutoffUs) r = true ∧ q.Matches q.startUs r) := by
  have hrows := (h.live.tables name t ht).rows.filter fun r =>
    decide (q.Matches (q.start t.cutoffUs) r)
  rw [List.filter_append] at hrows
  refine (List.perm_append_comm.trans hrows).trans (.of_eq ?_)
  rw [List.filter_filter, ht]
  refine List.filter_congr fun r _ => ?_
  simp only [matches_start, Option.bind_some]
  refine Bool.eq_iff_iff.mpr ?_
  simp only [Bool.and_eq_true, decide_eq_true_eq]
  exact ⟨fun hm => hm.1, fun hm => ⟨hm, hm.1⟩⟩

theorem scan_eq (h : Inv config d) {out : List (StoredRow F)}
    (hs : d.scan config adm name q = .ok out) : out = d.matching name q := by
  obtain ⟨-, hs⟩ := ensure_bind.mp hs
  obtain ⟨_, -, hs⟩ := bind_ok.mp hs
  obtain ⟨t, ht, hs⟩ := bind_ok.mp hs
  rw [context_ok] at ht
  obtain ⟨hot, hhot, hs⟩ := bind_ok.mp hs
  obtain ⟨all, hall, hs⟩ := bind_ok.mp hs
  cases hs
  rw [scanSegments_ok hall, pushRows_ok hhot, List.nil_append,
    matchingRows_pruned (h.live.tables name t ht).held]
  refine sortRows_congr (scanned_perm h ht q) ?_
  exact (rowsOf_distinct h.live.distinct name).sublist (List.filter_sublist.map _)

/-- Nothing that a scan of the table asks for is refused. -/
structure Admission.Grants (adm : Admission) (config : Config F) (t : Table F) : Prop where
  start : adm.start = .ok ()
  segment : ∀ seg ∈ t.segments, adm.segment seg = .ok ()
  output : ∀ n ≤ config.queryMaxOutputBytes, adm.output n = .ok ()

theorem scan_of_le (h : Inv config d) {t : Table F}
    (ht : d.table name = some t) (hadm : adm.Grants config t)
    (hrange : ∀ start ∈ q.startUs, ∀ stop ∈ q.endUs, start ≤ stop)
    (hfit : ∀ seg ∈ t.segments, seg.decodedBytes ≤ config.hotMaxBytes)
    (hle : decodedBytes (d.matching name q) ≤ config.queryMaxOutputBytes) :
    d.scan config adm name q = .ok (d.matching name q) := by
  have hinv := h.live.tables name t ht
  have hperm := scanned_perm h ht q
  have hbytes : decodedBytes ((rowsOf name d.live.hot).filter
      (fun r => q.Matches (q.start t.cutoffUs) r) ++ matchingRows d.files q (q.start t.cutoffUs)
        (t.segments.filter fun seg => q.Keeps (q.start t.cutoffUs) t.config.shards seg)) ≤
      config.queryMaxOutputBytes := by
    rw [matchingRows_pruned hinv.held]
    refine le_of_eq_of_le ?_ hle
    exact ((hperm.trans (sortRows_perm _).symm).map _).sum_eq
  have hhot : decodedBytes ((rowsOf name d.live.hot).filter
      fun r => q.Matches (q.start t.cutoffUs) r) ≤ config.queryMaxOutputBytes := by
    rw [decodedBytes_append] at hbytes
    omega
  have hscan : d.scan config adm name q = .ok (sortRows ((rowsOf name d.live.hot).filter
      (fun r => q.Matches (q.start t.cutoffUs) r) ++ matchingRows d.files q (q.start t.cutoffUs)
        (t.segments.filter fun seg => q.Keeps (q.start t.cutoffUs) t.config.shards seg))) := by
    refine ensure_bind.mpr ⟨hrange, bind_ok.mpr ⟨_, hadm.start, bind_ok.mpr
      ⟨t, context_ok.mpr ht, ?_⟩⟩⟩
    refine bind_ok.mpr ⟨_, pushRows_of_le hadm.output hhot, bind_ok.mpr ⟨_, scanSegments_of_le
      (fun seg hs => hinv.held seg (List.mem_filter.mp hs).1)
      (fun seg hs => hadm.segment seg (List.mem_filter.mp hs).1) hadm.output
      (fun seg hs => hfit seg (List.mem_filter.mp hs).1) hbytes, rfl⟩⟩
  rw [hscan, scan_eq h hscan]

end

structure ScanResult (d : Db F) (name : Text) (q : Request) (out : List (StoredRow F)) :
    Prop where
  rows : ∀ r, r ∈ out ↔ (name, r) ∈ d.live.committed ∧ q.Matches q.startUs r ∧
    ∀ t, d.table name = some t → ∀ cutoff ∈ t.cutoffUs, cutoff ≤ r.row.timestampUs
  once : (out.map fun r => (r.sequence, r.ordinal)).Nodup
  sorted : out.Pairwise rowLe

omit [DecidableEq F] in
theorem matching_result (h : Inv config d) {t : Table F}
    (ht : d.table name = some t) (q : Request) : ScanResult d name q (d.matching name q) := by
  refine ⟨fun r => ?_, ?_, pairwise_sortRows _⟩
  · rw [Db.matching, (sortRows_perm _).mem_iff, List.mem_filter, mem_rowsOf, ht]
    simp only [Option.bind_some, above, decide_eq_true_eq, Option.some.injEq, forall_eq']
    exact and_congr_right fun _ => and_comm
  · refine ((sortRows_perm _).map _).nodup_iff.mpr ?_
    exact (rowsOf_distinct h.live.distinct name).sublist (List.filter_sublist.map _)

/-- A scan returns the rows a filter of all committed rows would; its limits and what it asks of
the rest of the engine are the only reasons to refuse a request for a table that is there. -/
theorem scan_exact (hd : (machine config).Reachable d) (adm : Admission) (name : Text)
    (q : Request) :
    (∀ out, d.scan config adm name q = .ok out → ScanResult d name q out) ∧
    ∀ t, d.table name = some t →
      (adm.Grants config t → (∀ start ∈ q.startUs, ∀ stop ∈ q.endUs, start ≤ stop) →
        (∀ seg ∈ t.segments, seg.decodedBytes ≤ config.hotMaxBytes) →
        decodedBytes (d.matching name q) ≤ config.queryMaxOutputBytes →
        ∃ out, d.scan config adm name q = .ok out) ∧
      ∀ seg ∈ t.segments, ¬q.Keeps (q.start t.cutoffUs) t.config.shards seg →
        ∀ r ∈ segmentRows d.files [seg], ¬q.Matches (q.start t.cutoffUs) r := by
  have h := inv_reachable hd
  refine ⟨fun out hs => ?_, fun t ht => ⟨fun hadm hrange hfit hle => ?_,
    fun seg hseg hk r hr => ?_⟩⟩
  · have heq := scan_eq h hs
    subst heq
    obtain ⟨-, hs⟩ := ensure_bind.mp hs
    obtain ⟨_, -, hs⟩ := bind_ok.mp hs
    obtain ⟨t, ht, -⟩ := bind_ok.mp hs
    exact matching_result h (context_ok.mp ht) q
  · exact ⟨_, scan_of_le h ht hadm hrange hfit hle⟩
  · obtain ⟨rows, hf, hdesc⟩ := (h.live.tables name t ht).held seg hseg
    rw [segmentRows_singleton hf] at hr
    exact not_matches_of_pruned hdesc hk r hr

section
open Rollup (orElse ok_orElse)

def mixedDb : Db Int := committing twoSegments (appendAt 14 9)

theorem reachable_mixedDb : (machine smallConfig).Reachable mixedDb :=
  reachable_twoSegments.step (step_committing trivial (by decide +kernel))

def lowRange : Request := ⟨some 10, some 15, some "a".toList, some "s".toList⟩

def tightMemory : Admission :=
  ⟨.ok (), fun _ => .ok (), fun n => if n ≤ 300 then .ok () else .error "raw memory"⟩

theorem scan_exact_mixedDb :
    ∃ d out, (machine smallConfig).Reachable d ∧
      d.scan smallConfig tightMemory "t".toList lowRange = .ok out ∧
      out.map (fun r => r.row.timestampUs) = [12, 14] ∧
      ScanResult d "t".toList lowRange out := by
  have hscan : mixedDb.scan smallConfig tightMemory "t".toList lowRange =
      .ok (orElse (mixedDb.scan smallConfig tightMemory "t".toList lowRange) []) :=
    ok_orElse (by decide +kernel)
  exact ⟨mixedDb, _, reachable_mixedDb, hscan, by decide +kernel,
    (scan_exact reachable_mixedDb tightMemory "t".toList lowRange).1 _ hscan⟩

-- Rows at rest

section
variable {config : Config F} {d : Db F}

/-- Every committed row above the cutoff of its table is held once, in a segment or in memory. -/
theorem rows_held_once (hd : (machine config).Reachable d) {t : Table F}
    (ht : d.table name = some t) :
    ((segmentRows d.files t.segments ++ rowsOf name d.live.hot).map fun r =>
      (r.sequence, r.ordinal)).Nodup ∧
    ∀ r, r ∈ segmentRows d.files t.segments ++ rowsOf name d.live.hot ↔
      (name, r) ∈ d.live.committed ∧ ∀ cutoff ∈ t.cutoffUs, cutoff ≤ r.row.timestampUs := by
  have h := (inv_reachable hd).live
  have hp := (h.tables name t ht).rows
  refine ⟨(hp.map _).nodup_iff.mpr ?_, fun r => ?_⟩
  · exact (rowsOf_distinct h.distinct name).sublist (List.filter_sublist.map _)
  · rw [hp.mem_iff, List.mem_filter, mem_rowsOf, above, decide_eq_true_eq]

theorem rows_held_once_mixedDb : ∃ t, (machine smallConfig).Reachable mixedDb ∧
    mixedDb.table "t".toList = some t ∧ t.segments.length = 2 ∧ mixedDb.live.hot.length = 1 ∧
    ((segmentRows mixedDb.files t.segments ++ rowsOf "t".toList mixedDb.live.hot).map fun r =>
      (r.sequence, r.ordinal)).Nodup := by
  obtain ⟨t, ht⟩ : ∃ t, mixedDb.table "t".toList = some t :=
    Option.isSome_iff_exists.mp (by decide +kernel)
  have hlen : (mixedDb.table "t".toList).map (·.segments.length) = some 2 := by decide +kernel
  rw [ht] at hlen
  exact ⟨t, reachable_mixedDb, ht, Option.some.inj hlen, by decide +kernel,
    (rows_held_once reachable_mixedDb ht).1⟩

/-- A database that is reopened has the state it had, whatever was checkpointed. -/
theorem reopen_restores (hd : (machine config).Reachable d) {d' : Db F}
    (hs : Step config d .reopen d') :
    d'.live = d.live ∧ d'.root = d.root ∧ d'.log = d.log ∧ d'.files = d.files := by
  have h := (inv_reachable hd).replay
  cases hs with
  | reopen hr => exact ⟨Except.ok.inj (hr.symm.trans h), rfl, rfl, rfl⟩

theorem reopen_restores_mixedDb : (machine smallConfig).Reachable mixedDb ∧
    mixedDb.log.length = 1 ∧ ∃ d', Step smallConfig mixedDb .reopen d' ∧
      d'.live = mixedDb.live := by
  have hs : Step smallConfig mixedDb .reopen _ := .reopen (inv_reachable reachable_mixedDb).replay
  exact ⟨reachable_mixedDb, by decide +kernel, _, hs, (reopen_restores reachable_mixedDb hs).1⟩

end

end

end Varve.Store
