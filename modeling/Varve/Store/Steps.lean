import Varve.Store.Moves

/-!
# Every step keeps the rows

The invariant of the database, step by step.
-/

namespace Varve.Store

open Engine
open Result (bind_ok)
open Rollup (above nextCutoff)

variable {F : Type} [F64 F] [DecidableEq F] {config : Config F} {d : Db F}
variable {plan : Plan} {outputs : List Segment}

section
omit [F64 F] [DecidableEq F]

theorem TableInv.sound {files : Files F} {s : Live F} {name : Text} {t : Table F}
    (h : TableInv files s name t) : Sound files t := by
  refine ⟨h.held, fun r hr => ?_⟩
  have := h.rows.subset (List.mem_append_left _ hr)
  exact (List.mem_filter.mp this).2

theorem PlanInv.extends {files files' : Files F} (h : PlanInv config files plan)
    (he : Extends files files') : PlanInv config files' plan :=
  ⟨fun seg hs => (h.held seg hs).extends he, h.key, h.ids, h.fewer⟩

theorem WrittenInv.extends {files files' : Files F}
    (h : WrittenInv config files plan outputs) (he : Extends files files') :
    WrittenInv config files' plan outputs :=
  ⟨h.chosen.extends he, fun seg hs => (h.held seg hs).extends he, h.key, by
    rw [segmentRows_extends h.held he, segmentRows_extends h.chosen.held he]
    exact h.rows, h.length⟩

end

omit [DecidableEq F] in
theorem CompactionInv.carry {d' : Db F} {c : Compaction F} (h : CompactionInv config d c)
    (hf : Extends d.files d'.files)
    (hg : d.generation < d'.generation ∨ d'.generation = d.generation ∧ d'.live = d.live) :
    CompactionInv config d' c := by
  cases c with
  | planned plan => exact PlanInv.extends h hf
  | written plan outputs => exact WrittenInv.extends h hf
  | prepared plan outputs captured next generation =>
    obtain ⟨hw, hz, hle, hcur⟩ := h
    refine ⟨hw.extends hf, hz, ?_, fun he => ?_⟩
    · rcases hg with hg | hg <;> omega
    · rcases hg with hg | ⟨hg, hl⟩
      · omega
      · rw [hl]
        exact hcur (he.trans hg)

-- Steps

omit [DecidableEq F] in
theorem Inv.commit {o : Operation F} {s : Live F} (h : Inv config d)
    (ha : applyRecord config.limits d.live o = .ok s) : Inv config (d.commit o s) := by
  obtain ⟨new, hadv⟩ := applyRecord_advances ha
  refine ⟨?_, h.checkpointed, h.drained, h.live.advances hadv, fun c hc => ?_⟩
  · simp only [Db.commit, List.foldlM_append, h.replay, Result.ok_bind]
    exact bind_ok.mpr ⟨s, ha, rfl⟩
  · exact (h.compaction c hc).carry (.refl _) (.inl (Nat.lt_succ_self _))

theorem Inv.checkpoint {s : Live F} {out : Drained F} {n : Nat} (h : Inv config d)
    (hs : (d.log.take n).foldlM (applyRecord config.limits) d.root = .ok s)
    (hw : drain config s d.files = .ok out)
    (hv : validateManifest (install out.outputs s.sequence s).catalog = .ok ()) :
    Inv config { d with
      live := install out.outputs s.sequence d.live
      root := install out.outputs s.sequence s
      log := d.log.drop n
      files := out.files
      generation := d.generation + 1 } := by
  obtain ⟨-, old, hold⟩ := replay_ok hs
  have hrest : (d.log.drop n).foldlM (applyRecord config.limits) s = .ok d.live := by
    have hrep := h.replay
    rw [← List.take_append_drop n d.log, List.foldlM_append, hs] at hrep
    exact hrep
  obtain ⟨-, new, hnew⟩ := replay_ok hrest
  obtain ⟨he, hall, hnone⟩ := drain_ok hw
  have hhot : s.hot = old := by rw [hold.hot, h.drained, List.nil_append]
  have hold' : s.hot.filter (fun p => decide (s.sequence < p.2.sequence)) = [] := by
    refine List.filter_eq_nil_iff.mpr fun p hp => ?_
    have := (hold.later p (hhot ▸ hp)).2
    simpa using this
  have hnew' : d.live.hot.filter (fun p => decide (s.sequence < p.2.sequence)) = new := by
    rw [hnew.hot, List.filter_append, hold', List.nil_append, List.filter_eq_self]
    exact fun p hp => by simpa using (hnew.later p hp).1
  refine ⟨replay_install (le_refl _) hnone hrest, rfl, hold', ?_, fun c hc => ?_⟩
  · refine ⟨fun name t' ht' => ?_, h.live.distinct, h.live.bounded, fun p hp => ?_, fun p hp => ?_⟩
    · obtain ⟨t, ht, rfl⟩ := Option.map_eq_some_iff.mp (installCatalog_lookup.symm.trans ht')
      obtain ⟨hheld, hids, hrows⟩ := h.live.tables name t ht
      have hrows' : (segmentRows d.files t.segments ++ rowsOf name s.hot ++ rowsOf name new).Perm
          ((rowsOf name d.live.committed).filter (above t.cutoffUs)) := by
        rw [List.append_assoc, ← rowsOf_append, ← hnew.hot]
        exact hrows
      cases hst : s.catalog.tables[name]? with
      | none =>
        -- a table created after the checkpoint
        have hempty : rowsOf name s.hot = [] := by
          refine rowsOf_eq_nil fun p hp hne => ?_
          obtain ⟨u, hu⟩ := hold.known p (hhot ▸ hp)
          rw [hne, hst] at hu
          cases hu
        have hsame : addSegments (out.outputs[name]?.getD []) t = t := by
          rw [hnone name hst]
          simp [addSegments]
        rw [hsame]
        refine ⟨fun seg hseg => (hheld seg hseg).extends he, hids, ?_⟩
        rw [segmentRows_extends hheld he]
        simp only [install, hnew']
        rw [hempty, List.append_nil] at hrows'
        exact hrows'
      | some u =>
        obtain ⟨t₂, ht₂, hk⟩ := hnew.grows.old name u hst
        obtain rfl := Option.some.inj (ht₂.symm.trans ht)
        obtain ⟨segments, hsegs, hperm, hseg⟩ := hall name u hst
        have hlook : (install out.outputs s.sequence s).catalog.tables[name]? =
            some (addSegments (out.outputs[name]?.getD []) u) := by
          rw [install, installCatalog_lookup, hst, Option.map_some]
        have hvalid := validateManifest_segments hv hlook
        rw [hsegs, Option.getD_some] at hvalid ⊢
        refine ⟨fun seg hm => ?_, ?_, ?_⟩
        · rcases List.mem_append.mp hm with hm | hm
          · exact (hheld seg hm).extends he
          · exact hk.layout.held (hseg seg hm)
        · have := (validateSegments_ids hvalid).1
          simpa only [addSegments, hk.segments] using this
        · simp only [install, hnew', addSegments, segmentRows_append, segmentRows_extends hheld he]
          exact ((hperm.append_left _).append_right _).trans hrows'
    · obtain ⟨t, ht⟩ := h.live.known p hp
      exact ⟨_, installCatalog_lookup.trans (by rw [ht, Option.map_some])⟩
    · exact h.live.hot p (List.mem_filter.mp hp).1
  · exact (h.compaction c hc).carry he (.inl (Nat.lt_succ_self _))

theorem Inv.retain {a : Sweep F} {nowUs : Int} (h : Inv config d) (hc : d.live.Checkpointed)
    (ha : retainTables config nowUs d.live.catalog.tables d.files = .ok a)
    (hv : validateManifest { d.live.catalog with tables := a.tables } = .ok ()) :
    Inv config (d.trim a) := by
  obtain ⟨-, hroot⟩ := h.settled hc
  have hhot : d.live.hot = [] := hroot ▸ h.drained
  obtain ⟨he, hall, hnone, -⟩ := retainTables_ok
    (fun name t ht => (h.live.tables name t ht).sound) ha
  refine ⟨rfl, hc, hhot, ?_, fun c hcomp => ?_⟩
  · refine ⟨fun name t' ht' => ?_, h.live.distinct, h.live.bounded, fun p hp => ?_, h.live.hot⟩
    · cases ht : d.live.catalog.tables[name]? with
      | none =>
        have hno := hnone name ht
        rw [show a.tables[name]? = some t' from ht'] at hno
        cases hno
      | some t =>
        obtain ⟨t₂, ht₂, hr⟩ := hall name t ht
        obtain rfl := Option.some.inj (ht₂.symm.trans ht')
        obtain ⟨-, -, hrows⟩ := h.live.tables name t ht
        refine ⟨?_, (validateSegments_ids (validateManifest_segments hv ht')).1, ?_⟩
        · rw [show t₂.config = t.config by rw [hr.table]]
          exact hr.held
        · simp only [Db.trim, Db.publish, hhot, rowsOf, List.filter_nil, List.map_nil,
            List.append_nil] at hrows ⊢
          refine hr.rows.trans ((hrows.filter _).trans ?_)
          rw [show t₂.cutoffUs = nextCutoff nowUs t.config.retentionUs t.cutoffUs by rw [hr.table],
            Rollup.filter_filter_above]
    · obtain ⟨t, ht⟩ := h.live.known p hp
      obtain ⟨t', ht', -⟩ := hall _ t ht
      exact ⟨t', ht'⟩
  · exact (h.compaction c hcomp).carry he (.inl (Nat.lt_succ_self _))

section
variable {files files' : Files F}

section
omit [F64 F] [DecidableEq F]

theorem Held.agree {table : TableConfig} {seg : Segment} (h : Held files table seg)
    (ha : files'[seg.id]? = files[seg.id]?) : Held files' table seg := by
  obtain ⟨rows, hr, hd⟩ := h
  exact ⟨rows, ha.trans hr, hd⟩

theorem segmentRows_agree {segments : List Segment}
    (h : ∀ seg ∈ segments, files'[seg.id]? = files[seg.id]?) :
    segmentRows files' segments = segmentRows files segments :=
  List.flatMap_congr fun seg hs => by rw [h seg hs]

theorem PlanInv.agree (h : PlanInv config files plan)
    (ha : ∀ seg ∈ plan.selected, files'[seg.id]? = files[seg.id]?) : PlanInv config files' plan :=
  ⟨fun seg hs => (h.held seg hs).agree (ha seg hs), h.key, h.ids, h.fewer⟩

theorem WrittenInv.agree
    (h : WrittenInv config files plan outputs)
    (ha : ∀ seg ∈ plan.selected ++ outputs, files'[seg.id]? = files[seg.id]?) :
    WrittenInv config files' plan outputs := by
  have hsel := fun seg hs => ha seg (List.mem_append_left _ hs)
  have hout := fun seg hs => ha seg (List.mem_append_right _ hs)
  refine ⟨h.chosen.agree hsel, fun seg hs => (h.held seg hs).agree (hout seg hs), h.key, ?_,
    h.length⟩
  rw [segmentRows_agree hout, segmentRows_agree hsel]
  exact h.rows

end

end

omit [DecidableEq F] in
theorem Inv.collect {keep : Text → Bool} (h : Inv config d)
    (hk : ∀ t ∈ d.live.segmentIds ++ d.pinned, keep t = true) :
    Inv config { d with files := d.files.filter fun t _ => keep t } := by
  have hagree : ∀ t : Text, keep t = true →
      (d.files.filter fun t _ => keep t)[t]? = d.files[t]? := by
    intro t ht
    rw [Std.ExtTreeMap.getElem?_filter']
    cases d.files[t]? <;> simp [ht]
  refine ⟨h.replay, h.checkpointed, h.drained, ⟨fun name t ht => ?_, h.live.distinct,
    h.live.bounded, h.live.known, h.live.hot⟩, fun c hc => ?_⟩
  · have hseg : ∀ seg ∈ t.segments,
        (d.files.filter fun t _ => keep t)[seg.id]? = d.files[seg.id]? := by
      refine fun seg hs => hagree _ (hk _ (List.mem_append_left _ ?_))
      exact List.mem_flatMap.mpr ⟨(name, t), Map.mem_toList.mpr ht, List.mem_map_of_mem hs⟩
    obtain ⟨hheld, hids, hrows⟩ := h.live.tables name t ht
    refine ⟨fun seg hs => (hheld seg hs).agree (hseg seg hs), hids, ?_⟩
    rw [segmentRows_agree hseg]
    exact hrows
  · have hpin : ∀ t ∈ c.pins, (d.files.filter fun t _ => keep t)[t]? = d.files[t]? := by
      refine fun t ht => hagree t (hk t (List.mem_append_right _ ?_))
      rw [Db.pinned, Option.mem_def.mp hc]
      exact ht
    have hcomp := h.compaction c hc
    cases c with
    | planned plan => exact PlanInv.agree hcomp fun seg hs => hpin _ (List.mem_map_of_mem hs)
    | written plan outputs =>
      exact WrittenInv.agree hcomp fun seg hs => hpin _ (List.mem_map_of_mem hs)
    | prepared plan outputs captured next generation =>
      exact ⟨WrittenInv.agree hcomp.1 fun seg hs => hpin _ (List.mem_map_of_mem hs), hcomp.2⟩

-- Publishing a compaction

section
omit [F64 F] [DecidableEq F]

theorem compacted_ok {s next : Live F}
    (h : compacted plan outputs s = .ok next) :
    ∃ t, s.catalog.tables[plan.name]? = some t ∧ next = { s with catalog := { s.catalog with
      tables := s.catalog.tables.insert plan.name (replaceSegments plan outputs t) } } := by
  obtain ⟨c, hc, h⟩ := bind_ok.mp h
  cases h
  obtain ⟨t, t', ht, hf, rfl⟩ := modifyTable_ok hc
  cases hf
  exact ⟨t, ht, rfl⟩

theorem retired_perm {segments selected : List Segment} (hn : (segments.map Segment.id).Nodup)
    (hs : (selected.map Segment.id).Nodup) (hsub : ∀ seg ∈ selected, seg ∈ segments) :
    (segments.filter fun seg => seg.id ∈ selected.map Segment.id).Perm selected := by
  refine (List.perm_ext_iff_of_nodup ((hn.of_map _).filter _) (hs.of_map _)).mpr fun seg => ?_
  rw [List.mem_filter, decide_eq_true_eq]
  refine ⟨fun h => ?_, fun h => ⟨hsub seg h, List.mem_map_of_mem h⟩⟩
  obtain ⟨other, ho, he⟩ := List.mem_map.mp h.2
  rwa [List.inj_on_of_nodup_map hn h.1 (hsub other ho) he.symm]

theorem split_retired (segments : List Segment) (ids : List Text) :
    (segments.filter (fun seg => seg.id ∉ ids) ++ segments.filter fun seg => seg.id ∈ ids).Perm
      segments := by
  have h := (List.filter_append_perm (fun seg : Segment => decide (seg.id ∈ ids)) segments)
  refine (List.perm_append_comm.trans ?_).trans h
  simp

end

/-- What a replacement does to the table: the same rows in fewer segments. -/
structure Compacts (files : Files F) (plan : Plan) (outputs : List Segment) (t t' : Table F) :
    Prop where
  rows : (segmentRows files t'.segments).Perm (segmentRows files t.segments)
  held : ∀ seg ∈ t'.segments, Held files t.config seg
  length : t'.segments.length < t.segments.length

omit [F64 F] [DecidableEq F] in
theorem compacts_replace {s : Live F} {name : Text}
    {t : Table F} (hw : WrittenInv config d.files plan outputs) (ht : TableInv d.files s name t)
    (hc : t.config = plan.config) (hsub : ∀ seg ∈ plan.selected, seg ∈ t.segments) :
    Compacts d.files plan outputs t (replaceSegments plan outputs t) := by
  have hret := retired_perm ht.ids hw.chosen.ids hsub
  have hsplit := split_retired t.segments (plan.selected.map Segment.id)
  refine ⟨?_, fun seg hs => ?_, ?_⟩
  · have hall : (segmentRows d.files (t.segments.filter
        (fun seg => seg.id ∉ plan.selected.map Segment.id) ++ plan.selected)).Perm
        (segmentRows d.files t.segments) :=
      ((hret.symm.append_left _).trans hsplit).flatMap_right _
    refine List.Perm.trans ?_ hall
    simp only [replaceSegments, segmentRows_append]
    exact hw.rows.append_left _
  · rcases List.mem_append.mp hs with hs | hs
    · exact ht.held seg (List.mem_filter.mp hs).1
    · rw [hc]
      exact hw.held seg hs
  · have hlen := hsplit.length_eq
    have hfew := hw.chosen.fewer
    have hsel := hret.length_eq
    have hout := hw.length
    simp only [replaceSegments, List.length_append] at hlen ⊢
    omega

theorem Inv.publish {captured next : Live F}
    (h : Inv config d)
    (hp : d.compaction = some (.prepared plan outputs captured next d.generation))
    (hc : d.live.Checkpointed) :
    Inv config { d.publish next with compaction := none } := by
  obtain ⟨hw, hz, -, hcur⟩ := h.compaction _ hp
  obtain rfl := hcur rfl
  obtain ⟨-, hroot⟩ := h.settled hc
  have hhot : d.live.hot = [] := hroot ▸ h.drained
  obtain ⟨t, ht, rfl⟩ := compacted_ok hz.compacted
  obtain ⟨t₂, ht₂, hconf, hsub⟩ := hz.current
  obtain rfl := Option.some.inj (ht₂.symm.trans ht)
  have hinv := h.live.tables _ _ ht
  have hcomp := compacts_replace hw hinv hconf hsub
  refine ⟨rfl, hc, hhot, ⟨fun name t' ht' => ?_, h.live.distinct, h.live.bounded, fun p hp => ?_,
    h.live.hot⟩, by simp⟩
  · simp only [Db.publish, Map.lookup_insert] at ht'
    split at ht'
    next hname =>
      cases ht'
      subst hname
      refine ⟨hcomp.held, (validateSegments_ids (validateManifest_segments hz.valid
        (Map.lookup_insert.trans (if_pos rfl)))).1, ?_⟩
      exact (hcomp.rows.append_right _).trans hinv.rows
    next =>
      obtain ⟨hheld, hids, hrows⟩ := h.live.tables name t' ht'
      exact ⟨hheld, hids, hrows⟩
  · obtain ⟨u, hu⟩ := h.live.known p hp
    simp only [Db.publish, Map.lookup_insert]
    split
    · exact ⟨_, rfl⟩
    · exact ⟨u, hu⟩

omit [DecidableEq F] in
theorem inv_created (h : Created d) : Inv config d := by
  refine ⟨?_, ?_, ?_, ⟨?_, ?_, ?_, ?_, ?_⟩, ?_⟩
  · rw [h.log, h.root]
    rfl
  · rw [h.root]
    exact h.checkpointed
  · rw [h.root, h.hot]
  · intro name t ht
    rw [h.tables] at ht
    simp at ht
  · simp [h.committed]
  · simp [h.committed]
  · simp [h.committed]
  · simp [h.hot]
  · simp [h.compaction]

theorem inv_step {d' : Db F} {l : Label} (h : Inv config d) (hs : Step config d l d') :
    Inv config d' := by
  cases hs with
  | commit _ ha => exact h.commit ha
  | capture _ _ => exact ⟨h.replay, h.checkpointed, h.drained, h.live, fun c hc =>
      (h.compaction c hc).carry (.refl _) (.inr ⟨rfl, rfl⟩)⟩
  | create _ _ _ ha => exact h.commit ha
  | checkpoint n hs hw hv => exact h.checkpoint hs hw hv
  | retain _ _ hc ha _ hv => exact h.retain hc ha hv
  | reopen hr =>
    obtain rfl := Except.ok.inj (h.replay.symm.trans hr)
    exact ⟨h.replay, h.checkpointed, h.drained, h.live, by simp⟩
  | collect keep hk => exact h.collect hk
  | plan _ hc hp =>
    refine ⟨h.replay, h.checkpointed, h.drained, h.live, fun c hc => ?_⟩
    cases hc
    obtain ⟨t, ht, hconf, hsub, hkey, hfew⟩ := compactionPlan_ok hp
    have hinv := h.live.tables _ t ht
    exact ⟨fun seg hs => hconf ▸ hinv.held seg (hsub.subset hs), hkey,
      hinv.ids.sublist (hsub.map _), hfew⟩
  | write hp hr hw =>
    obtain ⟨he, hwritten⟩ := write_ok (h.compaction _ hp) hr hw
    refine ⟨h.replay, h.checkpointed, h.drained, ⟨fun name t ht => ?_, h.live.distinct,
      h.live.bounded, h.live.known, h.live.hot⟩, fun c hc => ?_⟩
    · obtain ⟨hheld, hids, hrows⟩ := h.live.tables name t ht
      refine ⟨fun seg hs => (hheld seg hs).extends he, hids, ?_⟩
      rw [segmentRows_extends hheld he]
      exact hrows
    · cases hc
      exact hwritten
  | freeze hp hc ht hconf hs hn hv =>
    refine ⟨h.replay, h.checkpointed, h.drained, h.live, fun c hc => ?_⟩
    cases hc
    exact ⟨h.compaction _ hp, ⟨⟨_, ht, hconf, hs⟩, hn, hv⟩, le_refl _, fun _ => rfl⟩
  | publish hp _ hc => exact h.publish hp hc
  | abandon => exact ⟨h.replay, h.checkpointed, h.drained, h.live, by simp⟩

theorem inv_reachable (h : (machine config).Reachable d) : Inv config d :=
  h.invariant (fun _ => inv_created) fun _ _ _ => inv_step

end Varve.Store
