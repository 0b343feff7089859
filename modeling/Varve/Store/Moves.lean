import Varve.Store.Safety

/-!
# Moving rows between files

What a checkpoint, a sweep of retention and a compaction write, stated of the rows in the files
before and after.
-/

namespace Varve.Store

open Engine
open Result (ensure bind_ok ensure_bind)
open Rollup (above nextCutoff)

variable {F : Type} [DecidableEq F]
variable {config : Config F} {files : Files F} {table : TableConfig} {rows : List (StoredRow F)}

theorem drain_foldlM {hot : List (Text × StoredRow F)}
    {entries : List (Text × Table F)} {a out : Drained F} (hn : (entries.map Prod.fst).Nodup)
    (h : entries.foldlM (drainTable config hot) a = .ok out) :
    Extends a.files out.files ∧
      (∀ entry ∈ entries, ∃ segments, out.outputs[entry.1]? = some segments ∧
        (segmentRows out.files segments).Perm (rowsOf entry.1 hot) ∧
        ∀ seg ∈ segments, Held out.files entry.2.config seg) ∧
      ∀ name : Text, name ∉ entries.map Prod.fst → out.outputs[name]? = a.outputs[name]? := by
  induction entries generalizing a with
  | nil =>
    cases h
    exact ⟨.refl _, by simp, fun _ _ => rfl⟩
  | cons entry entries ih =>
    obtain ⟨mid, hm, h⟩ := bind_ok.mp h
    obtain ⟨written, hw, hm⟩ := bind_ok.mp hm
    cases hm
    rw [List.map_cons, List.nodup_cons] at hn
    obtain ⟨he, hperm, hheld⟩ := writePartitioned_ok hw
    obtain ⟨he', hall, hnot⟩ := ih hn.2 h
    refine ⟨he.trans he', List.forall_mem_cons.mpr ⟨⟨written.segments, ?_, ?_, ?_⟩, hall⟩, ?_⟩
    · rw [hnot _ hn.1, Map.lookup_insert, if_pos rfl]
    · rw [segmentRows_extends hheld he']
      exact hperm
    · exact fun seg hs => (hheld seg hs).extends he'
    · intro name hname
      rw [List.map_cons, List.mem_cons, not_or] at hname
      rw [hnot name hname.2, Map.lookup_insert, if_neg (Ne.symm hname.1)]

theorem drain_ok {s : Live F} {out : Drained F}
    (h : drain config s files = .ok out) :
    Extends files out.files ∧
      (∀ (name : Text) (t : Table F), s.catalog.tables[name]? = some t →
        ∃ segments, out.outputs[name]? = some segments ∧
          (segmentRows out.files segments).Perm (rowsOf name s.hot) ∧
          ∀ seg ∈ segments, Held out.files t.config seg) ∧
      ∀ name : Text, s.catalog.tables[name]? = none → out.outputs[name]? = none := by
  obtain ⟨he, hall, hnot⟩ := drain_foldlM (Map.nodup_keys_toList _) h
  refine ⟨he, fun name t ht => hall (name, t) (Map.mem_toList.mpr ht), fun name hn => ?_⟩
  rw [hnot name fun hm => ?_]
  · rfl
  · obtain ⟨entry, hentry, rfl⟩ := List.mem_map.mp hm
    rw [Map.mem_toList, hn] at hentry
    cases hentry

-- Retention

/-- What the loop over the segments of a table has done with those already seen. -/
structure SweptOf (files : Files F) (table : TableConfig) (cutoff : Int) (removed : Nat)
    (done : List Segment) (a : Swept F) : Prop where
  extend : Extends files a.files
  held : ∀ seg ∈ a.segments, Held a.files table seg
  rows : (segmentRows a.files a.segments).Perm
    ((segmentRows files done).filter fun r => cutoff ≤ r.row.timestampUs)
  count : a.removed + (segmentRows a.files a.segments).length =
    removed + (segmentRows files done).length

omit [DecidableEq F] in
theorem segmentRows_singleton {seg : Segment}
    (h : files[seg.id]? = some rows) : segmentRows files [seg] = rows := by
  simp [segmentRows, h]

theorem SweptOf.segment {cutoff : Int}
    {removed : Nat} {done : List Segment} {a a' : Swept F} {seg : Segment}
    (h : SweptOf files table cutoff removed done a) (hseg : Held files table seg)
    (hs : sweepSegment config table cutoff a seg = .ok a') :
    SweptOf files table cutoff removed (done ++ [seg]) a' := by
  obtain ⟨rows, hrows, hd⟩ := hseg
  have hone := segmentRows_singleton hrows
  unfold sweepSegment at hs
  split_ifs at hs with hmax hmin
  · -- the whole segment is below the cutoff
    cases hs
    have hnone : rows.filter (fun r => cutoff ≤ r.row.timestampUs) = [] := by
      refine List.filter_eq_nil_iff.mpr fun r hr => ?_
      have := hd.max r hr
      simp only [decide_eq_true_eq]
      omega
    refine ⟨h.extend, h.held, ?_, ?_⟩
    · rw [segmentRows_append, hone, List.filter_append, hnone, List.append_nil]
      exact h.rows
    · have hc := h.count
      rw [segmentRows_append, hone, List.length_append, hd.count]
      simp only
      omega
  · -- the segment crosses the cutoff and is rewritten
    obtain ⟨-, hs⟩ := ensure_bind.mp hs
    obtain ⟨old, hold, hs⟩ := bind_ok.mp hs
    obtain ⟨out, hout, hs⟩ := bind_ok.mp hs
    cases hs
    obtain rfl := Option.some.inj ((readRawSegment_ok hold).symm.trans (h.extend _ _ hrows))
    obtain ⟨he, hperm, hheld⟩ := writePartitioned_ok hout
    have hkeep := segmentRows_extends h.held he
    refine ⟨h.extend.trans he, ?_, ?_, ?_⟩
    · intro s hm
      rcases List.mem_append.mp hm with hm | hm
      · exact (h.held s hm).extends he
      · exact hheld s hm
    · simp only [segmentRows_append, hkeep, hone, List.filter_append]
      exact h.rows.append hperm
    · have hc := h.count
      have hlen := hperm.length_eq
      have hle := List.length_filter_le (fun r => decide (cutoff ≤ r.row.timestampUs)) old
      simp only [segmentRows_append, hkeep, hone, List.length_append, hlen, hd.count]
      omega
  · -- the whole segment is kept
    cases hs
    have hall : rows.filter (fun r => cutoff ≤ r.row.timestampUs) = rows := by
      refine List.filter_eq_self.mpr fun r hr => ?_
      have := hd.min r hr
      simp only [decide_eq_true_eq]
      omega
    have hone' := segmentRows_singleton (h.extend _ _ hrows)
    refine ⟨h.extend, ?_, ?_, ?_⟩
    · intro s hm
      rcases List.mem_append.mp hm with hm | hm
      · exact h.held s hm
      · rw [List.mem_singleton.mp hm]
        exact ⟨rows, h.extend _ _ hrows, hd⟩
    · simp only [segmentRows_append, hone, hone', List.filter_append, hall]
      exact h.rows.append_right _
    · have hc := h.count
      simp only [segmentRows_append, hone, hone', List.length_append]
      omega

theorem SweptOf.segments {cutoff : Int}
    {removed : Nat} {done segments : List Segment} {a a' : Swept F}
    (h : SweptOf files table cutoff removed done a)
    (hseg : ∀ seg ∈ segments, Held files table seg)
    (hs : segments.foldlM (sweepSegment config table cutoff) a = .ok a') :
    SweptOf files table cutoff removed (done ++ segments) a' := by
  induction segments generalizing done a with
  | nil =>
    cases hs
    rwa [List.append_nil]
  | cons seg segments ih =>
    obtain ⟨hhead, htail⟩ := List.forall_mem_cons.mp hseg
    obtain ⟨mid, hm, hs⟩ := bind_ok.mp hs
    have := ih (h.segment hhead hm) htail hs
    rwa [List.append_assoc] at this

structure RetainedAs (nowUs : Int) (files files' : Files F) (t t' : Table F) : Prop where
  table : t' = { t with
    segments := t'.segments
    cutoffUs := nextCutoff nowUs t.config.retentionUs t.cutoffUs
    rollupCutoffUs := nextCutoff nowUs t.config.rollupRetentionUs t.rollupCutoffUs
    rollups := keepRollups nowUs t }
  held : ∀ seg ∈ t'.segments, Held files' t.config seg
  rows : (segmentRows files' t'.segments).Perm
    ((segmentRows files t.segments).filter (above t'.cutoffUs))

omit [DecidableEq F] in
theorem RetainedAs.extends {nowUs : Int} {files files' files'' : Files F} {t t' : Table F}
    (h : RetainedAs nowUs files files' t t') (he : Extends files' files'') :
    RetainedAs nowUs files files'' t t' :=
  ⟨h.table, fun seg hs => (h.held seg hs).extends he, by
    rw [segmentRows_extends h.held he]
    exact h.rows⟩

/-- The segments of a table are held and its rows are not below its cutoff. -/
structure Sound (files : Files F) (t : Table F) : Prop where
  held : ∀ seg ∈ t.segments, Held files t.config seg
  above : ∀ r ∈ segmentRows files t.segments, above t.cutoffUs r = true

theorem sweepTable_ok {nowUs : Int} {t : Table F}
    {a a' : Swept F} (ht : Sound a.files t) (hf : Extends files a.files)
    (hfiles : ∀ seg ∈ t.segments, Held files t.config seg)
    (h : sweepTable config nowUs t a = .ok a') :
    Extends a.files a'.files ∧ (∀ seg ∈ a'.segments, Held a'.files t.config seg) ∧
      (segmentRows a'.files a'.segments).Perm ((segmentRows files t.segments).filter
        (above (nextCutoff nowUs t.config.retentionUs t.cutoffUs))) ∧
      a'.removed + (segmentRows a'.files a'.segments).length =
        a.removed + (segmentRows files t.segments).length := by
  have hrows := segmentRows_extends hfiles hf
  unfold sweepTable at h
  cases hage : t.config.retentionUs with
  | none =>
    rw [hage] at h
    cases h
    have hself : (segmentRows files t.segments).filter (above (nextCutoff nowUs none t.cutoffUs)) =
        segmentRows files t.segments :=
      List.filter_eq_self.mpr fun r hr => ht.above r (hrows ▸ hr)
    exact ⟨.refl _, ht.held, by rw [hrows, hself], by rw [hrows]⟩
  | some age =>
    rw [hage] at h
    have hstart : SweptOf a.files t.config (max (checkedCutoff nowUs age)
        (t.cutoffUs.getD i64Min)) a.removed [] { a with
          segments := []
          changed := a.changed || decide (t.cutoffUs ≠
            some (max (checkedCutoff nowUs age) (t.cutoffUs.getD i64Min))) } :=
      ⟨.refl _, by simp, by simp [segmentRows], by simp [segmentRows]⟩
    obtain ⟨he, hheld, hperm, hcount⟩ := hstart.segments ht.held h
    rw [List.nil_append, hrows] at hperm hcount
    refine ⟨he, hheld, ?_, hcount⟩
    have habove : (fun r : StoredRow F => decide (max (checkedCutoff nowUs age)
        (t.cutoffUs.getD i64Min) ≤ r.row.timestampUs)) =
        above (nextCutoff nowUs (some age) t.cutoffUs) := by
      funext r
      simp [Rollup.above, Rollup.nextCutoff]
    rw [← habove]
    exact hperm

def keptRows (nowUs : Int) (files : Files F) (t : Table F) : List (StoredRow F) :=
  (segmentRows files t.segments).filter (above (nextCutoff nowUs t.config.retentionUs t.cutoffUs))

theorem retain_foldlM {nowUs : Int}
    {entries : List (Text × Table F)} {a a' : Sweep F} (hn : (entries.map Prod.fst).Nodup)
    (hf : Extends files a.files) (hs : ∀ entry ∈ entries, Sound files entry.2)
    (h : entries.foldlM (retainTable config nowUs) a = .ok a') :
    Extends a.files a'.files ∧
      (∀ entry ∈ entries, ∃ t', a'.tables[entry.1]? = some t' ∧
        RetainedAs nowUs files a'.files entry.2 t') ∧
      (∀ name : Text, name ∉ entries.map Prod.fst → a'.tables[name]? = a.tables[name]?) ∧
      a'.removed + (entries.map fun entry => (keptRows nowUs files entry.2).length).sum =
        a.removed + (entries.map fun entry => (segmentRows files entry.2.segments).length).sum := by
  induction entries generalizing a with
  | nil =>
    cases h
    exact ⟨.refl _, by simp, fun _ _ => rfl, by simp⟩
  | cons entry entries ih =>
    obtain ⟨mid, hm, h⟩ := bind_ok.mp h
    obtain ⟨swept, hw, hm⟩ := bind_ok.mp hm
    cases hm
    rw [List.map_cons, List.nodup_cons] at hn
    obtain ⟨hhead, htail⟩ := List.forall_mem_cons.mp hs
    have hsound : Sound a.files entry.2 :=
      ⟨fun seg hm => (hhead.held seg hm).extends hf, by
        rw [segmentRows_extends hhead.held hf]
        exact hhead.above⟩
    obtain ⟨he, hheld, hperm, hcount⟩ := sweepTable_ok hsound hf hhead.held hw
    obtain ⟨he', hall, hnot, hsum⟩ := ih hn.2 (hf.trans he) htail h
    refine ⟨he.trans he', List.forall_mem_cons.mpr ⟨?_, hall⟩, ?_, ?_⟩
    · exact ⟨_, (hnot _ hn.1).trans (Map.lookup_insert.trans (if_pos rfl)),
        RetainedAs.extends ⟨rfl, hheld, hperm⟩ he'⟩
    · intro name hname
      rw [List.map_cons, List.mem_cons, not_or] at hname
      rw [hnot name hname.2, Map.lookup_insert, if_neg (Ne.symm hname.1)]
    · have hlen := hperm.length_eq
      simp only [List.map_cons, List.sum_cons, keptRows] at hcount hsum ⊢
      omega

theorem retainTables_ok {nowUs : Int} {tables : Map (Table F)}
    {a : Sweep F}
    (hs : ∀ (name : Text) (t : Table F), tables[name]? = some t → Sound files t)
    (h : retainTables config nowUs tables files = .ok a) :
    Extends files a.files ∧
      (∀ (name : Text) (t : Table F), tables[name]? = some t →
        ∃ t', a.tables[name]? = some t' ∧ RetainedAs nowUs files a.files t t') ∧
      (∀ name : Text, tables[name]? = none → a.tables[name]? = none) ∧
      a.removed + (tables.toList.map fun entry => (keptRows nowUs files entry.2).length).sum =
        (tables.toList.map fun entry => (segmentRows files entry.2.segments).length).sum := by
  obtain ⟨he, hall, hnot, hsum⟩ := retain_foldlM (Map.nodup_keys_toList tables) (.refl files)
    (fun entry hentry => hs entry.1 entry.2 (Map.mem_toList.mp hentry)) h
  refine ⟨he, fun name t ht => hall (name, t) (Map.mem_toList.mpr ht), fun name hn => ?_, ?_⟩
  · rw [hnot name fun hm => ?_]
    · exact hn
    · obtain ⟨entry, hentry, rfl⟩ := List.mem_map.mp hm
      rw [Map.mem_toList, hn] at hentry
      cases hentry
  · simpa using hsum

-- Compaction

section
omit [DecidableEq F]

theorem takeWithin_front (config : Config F) (n bytes : Nat) (candidates : List Segment) :
    takeWithin config n bytes candidates <+: candidates := by
  induction candidates generalizing n bytes with
  | nil => exact List.prefix_refl _
  | cons seg rest ih =>
    rw [takeWithin]
    split
    · exact List.nil_prefix
    · exact List.cons_prefix_cons.mpr ⟨rfl, ih _ _⟩

theorem groups_ok {segments group : List Segment}
    (h : group ∈ groups config segments) :
    group.Sublist segments ∧ ∃ key, ∀ seg ∈ group, Segment.key seg = key := by
  obtain ⟨key, -, rfl⟩ := List.mem_map.mp h
  refine ⟨List.filter_sublist.trans List.filter_sublist, ofLex key, fun seg hs => ?_⟩
  have := (List.mem_filter.mp hs).2
  rw [decide_eq_true_eq] at this
  rw [← this, ofLex_toLex]

theorem chooseGroup_ok {candidates selected : List Segment}
    (h : chooseGroup config candidates = some selected) :
    selected <+: candidates ∧ divCeil (rowCount selected) config.segmentRows < selected.length := by
  dsimp only [chooseGroup] at h
  split at h
  · cases h
  · next hn =>
    obtain rfl := Option.some.inj h
    rw [not_or, not_lt, not_le] at hn
    exact ⟨takeWithin_front _ _ _ _, hn.2⟩

theorem compactionPlan_ok {tables : Map (Table F)} {plan : Plan}
    (h : compactionPlan config tables = some plan) :
    ∃ t, tables[plan.name]? = some t ∧ t.config = plan.config ∧
      plan.selected.Sublist t.segments ∧ (∃ key, ∀ seg ∈ plan.selected, Segment.key seg = key) ∧
      divCeil (rowCount plan.selected) config.segmentRows < plan.selected.length := by
  obtain ⟨entry, hentry, h⟩ := List.exists_of_findSome?_eq_some h
  obtain ⟨selected, hsel, rfl⟩ := Option.map_eq_some_iff.mp h
  obtain ⟨group, hgroup, hchoose⟩ := List.exists_of_findSome?_eq_some hsel
  obtain ⟨hsub, key, hkey⟩ := groups_ok hgroup
  obtain ⟨hpre, hlen⟩ := chooseGroup_ok hchoose
  exact ⟨entry.2, Map.mem_toList.mp hentry, rfl, hpre.sublist.trans hsub,
    ⟨key, fun seg hs => hkey seg (hpre.subset hs)⟩, hlen⟩

theorem readSelected_foldlM {segments : List Segment}
    {start rows : List (StoredRow F)}
    (h : segments.foldlM (fun rows seg => do
      let batch ← readRawSegment granted files seg
      ensure (decodedBytes (rows ++ batch) ≤ config.hotMaxBytes)
        "compaction working set exceeds hot memory budget"
      .ok (rows ++ batch)) start = .ok rows) : rows = start ++ segmentRows files segments := by
  induction segments generalizing start with
  | nil =>
    cases h
    simp [segmentRows]
  | cons seg segments ih =>
    obtain ⟨mid, hm, h⟩ := bind_ok.mp h
    obtain ⟨batch, hb, hm⟩ := bind_ok.mp hm
    obtain ⟨-, hm⟩ := ensure_bind.mp hm
    cases hm
    rw [ih h, List.append_assoc, segmentRows, segmentRows, List.flatMap_cons, readRawSegment_ok hb,
      Option.getD_some]

theorem readSelected_ok {selected : List Segment}
    (h : readSelected config files selected = .ok rows) :
    rows = segmentRows files selected := by
  rw [readSelected_foldlM h, List.nil_append]

theorem partition_one {key : PartitionKey} {rows start : List (StoredRow F)}
    {ps : Partitions F} (hk : ∀ r ∈ rows, partitionKey table r = .ok key)
    (h : rows.foldlM (partitionRow table) [(key, start)] = .ok ps) :
    ps = [(key, start ++ rows)] := by
  induction rows generalizing start with
  | nil =>
    cases h
    rw [List.append_nil]
  | cons r rows ih =>
    obtain ⟨hr, hrest⟩ := List.forall_mem_cons.mp hk
    obtain ⟨mid, hm, h⟩ := bind_ok.mp h
    obtain ⟨k, hkr, hm⟩ := bind_ok.mp hm
    obtain rfl := Except.ok.inj (hr.symm.trans hkr)
    cases hm
    rw [insertPartition, if_pos rfl] at h
    rw [ih hrest h, List.append_assoc, List.singleton_append]

theorem writePartitionedRows_one {codec : Codec F} {n : Nat}
    {key : PartitionKey} {ws : List (Written F)} (hn : 0 < n)
    (hk : ∀ r ∈ rows, partitionKey table r = .ok key)
    (h : writePartitionedRows codec n table rows = .ok ws) :
      WrittenAs codec table n key rows ws := by
  obtain ⟨ps, hps, h⟩ := bind_ok.mp h
  obtain ⟨parts, hparts, h⟩ := bind_ok.mp h
  cases h
  cases rows with
  | nil =>
    cases hps
    cases hparts
    exact ⟨by simp, (Nat.div_eq_of_lt (by simp only [List.length_nil]; omega)).symm, by simp,
      by simp⟩
  | cons r rows =>
    obtain ⟨hr, hrest⟩ := List.forall_mem_cons.mp hk
    obtain ⟨mid, hm, hps⟩ := bind_ok.mp hps
    obtain ⟨k, hkr, hm⟩ := bind_ok.mp hm
    obtain rfl := Except.ok.inj (hr.symm.trans hkr)
    cases hm
    rw [insertPartition] at hps
    obtain rfl := partition_one hrest hps
    cases mapM_ok hparts with
    | cons hp hnil =>
      cases hnil
      rw [List.flatten_singleton]
      exact writePartition_ok hn hp hk

end

theorem write_ok {plan : Plan}
    {out : Outputs F} (hp : PlanInv config files plan)
    (hr : readSelected config files plan.selected = .ok rows)
    (hw : writePartitioned config plan.config files rows = .ok out) :
    Extends files out.files ∧ WrittenInv config out.files plan out.segments := by
  obtain rfl := readSelected_ok hr
  obtain ⟨he, hperm, hheld⟩ := writePartitioned_ok hw
  obtain ⟨key, hkey⟩ := hp.key
  have hrows : ∀ r ∈ segmentRows files plan.selected, partitionKey plan.config r = .ok key := by
    intro r hr
    obtain ⟨seg, hs, hr⟩ := List.mem_flatMap.mp hr
    obtain ⟨rows, hf, hd⟩ := hp.held seg hs
    rw [hf, Option.getD_some] at hr
    rw [hd.keys r hr, ← hkey seg hs]
    rfl
  have hcount : (segmentRows files plan.selected).length = rowCount plan.selected := by
    rw [segmentRows, List.length_flatMap, rowCount]
    refine congrArg List.sum (List.map_congr_left fun seg hs => ?_)
    obtain ⟨rows, hf, hd⟩ := hp.held seg hs
    rw [hf, Option.getD_some, hd.count]
  obtain ⟨written, hwr, hw⟩ := bind_ok.mp hw
  obtain ⟨files', -, hw⟩ := bind_ok.mp hw
  cases hw
  obtain ⟨-, hlen, -, hkeys⟩ := writePartitionedRows_one config.segmentRows_pos hrows hwr
  refine ⟨he, ⟨⟨fun seg hs => (hp.held seg hs).extends he, hp.key, hp.ids, hp.fewer⟩, hheld,
    ⟨key, fun seg hs => ?_⟩, ?_, ?_⟩⟩
  · rcases List.mem_append.mp hs with hs | hs
    · exact hkey seg hs
    · obtain ⟨w, hw, rfl⟩ := List.mem_map.mp hs
      exact hkeys w hw
  · rw [segmentRows_extends hp.held he]
    exact hperm
  · rw [List.length_map, hlen, hcount, divCeil]

end Varve.Store
