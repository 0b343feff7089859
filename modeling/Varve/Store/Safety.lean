import Varve.Store.Records

/-!
# The rows of a database

In every state that can be reached the files hold what the catalog says of them, and the rows of a
table are the committed rows not below its cutoff.
-/

namespace Varve.Store

open Engine
open Result (bind_ok ensure_bind)
open Rollup (above)

variable {F : Type} [F64 F] [DecidableEq F]

section
omit [F64 F] [DecidableEq F]

theorem rowsOf_append (name : Text) (a b : List (Text × StoredRow F)) :
    rowsOf name (a ++ b) = rowsOf name a ++ rowsOf name b := by
  simp [rowsOf]

theorem mem_rowsOf {name : Text} {rows : List (Text × StoredRow F)} {r : StoredRow F} :
    r ∈ rowsOf name rows ↔ (name, r) ∈ rows := by
  simp only [rowsOf, List.mem_map, List.mem_filter, decide_eq_true_eq]
  constructor
  · rintro ⟨p, ⟨hp, rfl⟩, rfl⟩
    exact hp
  · exact fun h => ⟨_, ⟨h, rfl⟩, rfl⟩

theorem rowsOf_eq_nil {name : Text} {rows : List (Text × StoredRow F)}
    (h : ∀ p ∈ rows, p.1 ≠ name) : rowsOf name rows = [] := by
  rw [rowsOf, List.filter_eq_nil_iff.mpr (by simpa using h), List.map_nil]

theorem segmentRows_append (files : Files F) (a b : List Segment) :
    segmentRows files (a ++ b) = segmentRows files a ++ segmentRows files b :=
  List.flatMap_append

theorem validateSegments_ids {config : TableConfig} {identities : List Text}
    {segments : List Segment} (h : validateSegments config identities segments = .ok ()) :
    (segments.map Segment.id).Nodup ∧ ∀ seg ∈ segments, seg.id ∉ identities := by
  induction segments generalizing identities with
  | nil => simp
  | cons seg segments ih =>
    obtain ⟨-, h⟩ := ensure_bind.mp h
    obtain ⟨hid, h⟩ := ensure_bind.mp h
    obtain ⟨-, -, h⟩ := bind_ok.mp h
    obtain ⟨hn, hrest⟩ := ih h
    refine ⟨?_, ?_⟩
    · rw [List.map_cons, List.nodup_cons]
      refine ⟨fun hm => ?_, hn⟩
      obtain ⟨other, ho, he⟩ := List.mem_map.mp hm
      exact hrest other ho (he ▸ List.mem_cons_self)
    · refine List.forall_mem_cons.mpr ⟨hid, fun other ho hm => ?_⟩
      exact hrest other ho (List.mem_cons_of_mem _ hm)

end

omit [DecidableEq F] in
theorem validateManifest_segments {c : Manifest F} (h : validateManifest c = .ok ())
    {name : Text} {t : Table F} (ht : c.tables[name]? = some t) :
    validateSegments t.config [] t.segments = .ok () := by
  obtain ⟨-, h⟩ := ensure_bind.mp h
  obtain ⟨-, h⟩ := ensure_bind.mp h
  obtain ⟨-, -, h⟩ := bind_ok.mp h
  have htable := Result.forM_ok.mp h (name, t) (Map.mem_toList.mpr ht)
  obtain ⟨-, -, h⟩ := bind_ok.mp htable
  obtain ⟨-, -, h⟩ := bind_ok.mp h
  cases hc : t.creationConfig with
  | none =>
    rw [hc] at h
    obtain ⟨-, -, h⟩ := bind_ok.mp h
    obtain ⟨-, h⟩ := ensure_bind.mp h
    obtain ⟨-, -, h⟩ := bind_ok.mp h
    obtain ⟨⟨⟩, hs, -⟩ := bind_ok.mp h
    exact hs
  | some created =>
    rw [hc] at h
    obtain ⟨-, -, h⟩ := bind_ok.mp h
    obtain ⟨-, h⟩ := ensure_bind.mp h
    obtain ⟨-, h⟩ := ensure_bind.mp h
    obtain ⟨-, -, h⟩ := bind_ok.mp h
    obtain ⟨⟨⟩, hs, -⟩ := bind_ok.mp h
    exact hs

-- Invariants

structure TableInv (files : Files F) (s : Live F) (name : Text) (t : Table F) : Prop where
  held : ∀ seg ∈ t.segments, Held files t.config seg
  ids : (t.segments.map Segment.id).Nodup
  rows : (segmentRows files t.segments ++ rowsOf name s.hot).Perm
    ((rowsOf name s.committed).filter (above t.cutoffUs))

structure LiveInv (files : Files F) (s : Live F) : Prop where
  tables : ∀ (name : Text) (t : Table F), s.catalog.tables[name]? = some t →
    TableInv files s name t
  distinct : (s.committed.map fun p => (p.2.sequence, p.2.ordinal)).Nodup
  bounded : ∀ p ∈ s.committed, p.2.sequence ≤ s.sequence
  known : ∀ p ∈ s.committed, ∃ t, s.catalog.tables[p.1]? = some t
  hot : ∀ p ∈ s.hot, p ∈ s.committed

omit [F64 F] [DecidableEq F] in
theorem LiveInv.advances {files : Files F} {s s' : Live F} {new : List (Text × StoredRow F)}
    (h : LiveInv files s) (ha : Advances s s' new) : LiveInv files s' := by
  have hknown : ∀ p ∈ s.committed ++ new, ∃ t, s.catalog.tables[p.1]? = some t := by
    intro p hp
    rcases List.mem_append.mp hp with hp | hp
    · exact h.known p hp
    · obtain ⟨t, ht, -⟩ := ha.rows.admitted p hp
      exact ⟨t, ht⟩
  have hhot : ∀ p ∈ s'.hot, p ∈ s'.committed := by
    rw [ha.rows.hot, ha.rows.committed]
    simp only [List.mem_append]
    exact fun p hp => hp.imp (h.hot p) id
  refine ⟨fun name t' ht' => ?_, ?_, ?_, ?_, hhot⟩
  · cases ht : s.catalog.tables[name]? with
    | none =>
      -- no row was ever written under the name of a table that is created now
      obtain ⟨hsegs, -, -⟩ := ha.grows.fresh name t' ht ht'
      have hnone : rowsOf name s'.committed = [] := by
        rw [ha.rows.committed]
        refine rowsOf_eq_nil fun p hp he => ?_
        obtain ⟨t, hp⟩ := hknown p hp
        rw [he, ht] at hp
        cases hp
      have hhot' : rowsOf name s'.hot = [] := by
        refine List.eq_nil_iff_forall_not_mem.mpr fun r hr => ?_
        have := mem_rowsOf.mpr (hhot _ (mem_rowsOf.mp hr))
        rw [hnone] at this
        cases this
      refine ⟨by simp [hsegs], by simp [hsegs], ?_⟩
      rw [hsegs, hnone, hhot']
      exact .refl _
    | some t =>
      obtain ⟨t₂, ht₂, hk⟩ := ha.grows.old name t ht
      obtain rfl := Option.some.inj (ht₂.symm.trans ht')
      obtain ⟨hheld, hids, hrows⟩ := h.tables name t ht
      refine ⟨?_, by rw [hk.segments]; exact hids, ?_⟩
      · rw [hk.segments]
        exact fun seg hs => hk.layout.held (hheld seg hs)
      · have hnew : (rowsOf name new).filter (above t.cutoffUs) = rowsOf name new := by
          refine List.filter_eq_self.mpr fun r hr => ?_
          obtain ⟨u, hu, hab⟩ := ha.rows.admitted _ (mem_rowsOf.mp hr)
          obtain rfl := Option.some.inj (hu.symm.trans ht)
          exact hab
        rw [hk.segments, hk.cutoff, ha.rows.hot, ha.rows.committed, rowsOf_append, rowsOf_append,
          List.filter_append, hnew, ← List.append_assoc]
        exact hrows.append_right _
  · rw [ha.rows.committed, List.map_append, List.nodup_append]
    refine ⟨h.distinct, ha.distinct, ?_⟩
    intro a hm b hb he
    obtain ⟨p, hp, rfl⟩ := List.mem_map.mp hm
    obtain ⟨q, hq, rfl⟩ := List.mem_map.mp hb
    have hle := h.bounded p hp
    have hseq := ha.rows.sequence q hq
    have := (Prod.mk.inj he).1
    omega
  · rw [ha.rows.committed, ha.sequence]
    intro p hp
    rcases List.mem_append.mp hp with hp | hp
    · exact (h.bounded p hp).trans (Nat.le_succ _)
    · rw [ha.rows.sequence p hp]
  · rw [ha.rows.committed]
    intro p hp
    obtain ⟨t, ht⟩ := hknown p hp
    obtain ⟨t', ht', -⟩ := ha.grows.old _ t ht
    exact ⟨t', ht'⟩

/-- Segments chosen for compaction: of one shard and window, and more than their rows need. -/
structure PlanInv (config : Config F) (files : Files F) (plan : Plan) : Prop where
  held : ∀ seg ∈ plan.selected, Held files plan.config seg
  key : ∃ key, ∀ seg ∈ plan.selected, Segment.key seg = key
  ids : (plan.selected.map Segment.id).Nodup
  fewer : divCeil (rowCount plan.selected) config.segmentRows < plan.selected.length

/-- Their replacements hold the same rows under the same shard and window. -/
structure WrittenInv (config : Config F) (files : Files F) (plan : Plan)
    (outputs : List Segment) : Prop where
  chosen : PlanInv config files plan
  held : ∀ seg ∈ outputs, Held files plan.config seg
  key : ∃ key, ∀ seg ∈ plan.selected ++ outputs, Segment.key seg = key
  rows : (segmentRows files outputs).Perm (segmentRows files plan.selected)
  length : outputs.length = divCeil (rowCount plan.selected) config.segmentRows

/-- What the capture of a root for compaction has checked. -/
structure Frozen (plan : Plan) (outputs : List Segment) (captured next : Live F) : Prop where
  current : ∃ t, captured.catalog.tables[plan.name]? = some t ∧ t.config = plan.config ∧
    ∀ seg ∈ plan.selected, seg ∈ t.segments
  compacted : compacted plan outputs captured = .ok next
  valid : validateManifest next.catalog = .ok ()

def CompactionInv (config : Config F) (d : Db F) : Compaction F → Prop
  | .planned plan => PlanInv config d.files plan
  | .written plan outputs => WrittenInv config d.files plan outputs
  | .prepared plan outputs captured next generation =>
    WrittenInv config d.files plan outputs ∧ Frozen plan outputs captured next ∧
      generation ≤ d.generation ∧ (generation = d.generation → captured = d.live)

structure Inv (config : Config F) (d : Db F) : Prop where
  replay : d.log.foldlM (applyRecord config.limits) d.root = .ok d.live
  checkpointed : d.root.Checkpointed
  drained : d.root.hot = []
  live : LiveInv d.files d.live
  compaction : ∀ c ∈ d.compaction, CompactionInv config d c

omit [DecidableEq F] in
theorem Inv.settled [DecidableEq F] {config : Config F} {d : Db F} (h : Inv config d)
    (hc : d.live.Checkpointed) : d.log = [] ∧ d.root = d.live := by
  obtain ⟨hlen, new, hr⟩ := replay_ok h.replay
  have hroot : d.live.catalog.checkpointSequence = d.root.sequence :=
    hr.grows.checkpoint.trans h.checkpointed
  have hlog : d.log = [] := List.length_eq_zero_iff.mp (by rw [hc] at hroot; omega)
  have hrep := h.replay
  rw [hlog] at hrep
  exact ⟨hlog, Except.ok.inj hrep⟩

end Varve.Store
