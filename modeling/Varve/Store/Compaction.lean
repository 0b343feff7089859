import Varve.Lib.Path
import Varve.Store.Steps

/-!
# Compaction

A published compaction puts the rows of some segments of one shard and window into fewer segments
of that shard and window.
-/

namespace Varve.Store

open Engine
open Result (bind_ok)

variable {F : Type} [F64 F] [DecidableEq F] {config : Config F} {d d' : Db F}

def Db.segmentCount (d : Db F) : Nat :=
  Map.total (fun _ t => t.segments.length) d.live.catalog.tables

/-- What the publication of a compaction does, and what it rests on. -/
structure Published (d d' : Db F) (plan : Plan) (outputs : List Segment) (t : Table F) : Prop where
  captured : ∃ next, d.compaction = some (.prepared plan outputs d.live next d.generation)
  root : d.root = d.live
  table : d.table plan.name = some t
  inputs : ∀ seg ∈ plan.selected, seg ∈ t.segments
  retired : ∀ seg ∈ t.segments, seg.id ∈ plan.selected.map Segment.id ↔ seg ∈ plan.selected
  replaced : d'.live = { d.live with catalog := { d.live.catalog with
    tables := d.live.catalog.tables.insert plan.name (replaceSegments plan outputs t) } }
  durable : d'.root = d'.live ∧ d'.log = []
  key : ∃ key, ∀ seg ∈ plan.selected ++ outputs, Segment.key seg = key
  rows : ∀ name, (d'.rows name).Perm (d.rows name)
  valid : validateSegments t.config [] (replaceSegments plan outputs t).segments = .ok ()
  fewer : d'.segmentCount < d.segmentCount

theorem published_of_step (h : Inv config d) (hs : Step config d .publish d') :
    ∃ plan outputs t, Published d d' plan outputs t := by
  cases hs with
  | @publish plan outputs captured next hp hseq hc =>
    obtain ⟨hw, hz, -, hcur⟩ := h.compaction _ hp
    obtain rfl := hcur rfl
    obtain ⟨hlog, hroot⟩ := h.settled hc
    obtain ⟨t, ht, rfl⟩ := compacted_ok hz.compacted
    obtain ⟨t₂, ht₂, hconf, hsub⟩ := hz.current
    obtain rfl := Option.some.inj (ht₂.symm.trans ht)
    have hinv := h.live.tables _ _ ht
    have hcomp := compacts_replace hw hinv hconf hsub
    refine ⟨plan, outputs, t₂, ⟨_, hp⟩, hroot, ht, hsub, fun seg hseg => ⟨fun hid => ?_, fun hm =>
      List.mem_map_of_mem hm⟩, rfl, ⟨rfl, rfl⟩, hw.key, fun name => ?_, ?_, ?_⟩
    · exact (retired_perm hinv.ids hw.chosen.ids hsub).subset
        (List.mem_filter.mpr ⟨hseg, by simpa using hid⟩)
    · simp only [Db.rows, Db.table, Db.publish, Map.lookup_insert]
      split
      next hname =>
        subst hname
        rw [ht]
        exact hcomp.rows.append_right _
      next => exact .refl _
    · exact validateManifest_segments hz.valid (Map.lookup_insert.trans (if_pos rfl))
    · have htotal := Map.total_insert (f := fun _ t => t.segments.length)
        (w := replaceSegments plan outputs t₂) ht
      have hlen := hcomp.length
      simp only [Db.segmentCount, Db.publish]
      omega

theorem segmentCount_step {l : Label} (h : Inv config d) (hl : l.compacts = true)
    (hs : Step config d l d') :
    d'.segmentCount + (if l = .publish then 1 else 0) ≤ d.segmentCount := by
  by_cases hp : l = .publish
  · subst hp
    obtain ⟨plan, outputs, t, hpub⟩ := published_of_step h hs
    simpa using hpub.fewer
  · rw [if_neg hp]
    cases hs with
    | publish => exact absurd rfl hp
    | collect | plan | write | freeze | abandon => exact le_refl _
    | commit | capture | create | checkpoint | retain | reopen => cases hl

theorem compaction_preserves (hd : (machine config).Reachable d) :
    (∀ d', Step config d .publish d' → ∃ plan outputs t, Published d d' plan outputs t) ∧
    ∀ labels d', (machine config).Path d labels d' → (∀ l ∈ labels, l.compacts = true) →
      d'.segmentCount + labels.count .publish ≤ d.segmentCount := by
  refine ⟨fun d' hs => published_of_step (inv_reachable hd) hs, fun labels d' hp hl => ?_⟩
  exact hp.countP_le hd hl fun s l t hs hl hstep => by
    have := segmentCount_step (inv_reachable hs) hl hstep
    simpa using this

-- Two small segments

section
open Rollup (smallLimits rowAt orElse ok_orElse)

/-- A file name that spells the first bytes of the file. -/
def plainDigest : Journal.Digest where
  hash bytes := (bytes ++ List.replicate 32 0).take 32
  length_hash bytes := by simp

/-- Four bytes a row: the sequence, the ordinal, the timestamp and the value. -/
def decodeSmall : Bytes → Except String (List (StoredRow Int))
  | [] => .ok []
  | sequence :: ordinal :: timestampUs :: value :: rest => do
    let rows ← decodeSmall rest
    .ok (⟨rowAt timestampUs.toNat value.toNat, sequence.toNat, ordinal.toNat⟩ :: rows)
  | _ => .error "truncated row"

/-- Rows that do not fit into four bytes are refused. -/
def encodeSmall (rows : List (StoredRow Int)) : Except String Bytes :=
  let bytes := rows.flatMap fun r => [UInt8.ofNat r.sequence, UInt8.ofNat r.ordinal,
    UInt8.ofNat r.row.timestampUs.toNat, UInt8.ofNat r.row.value.toNat]
  if decodeSmall bytes = .ok rows then .ok bytes else .error "unsupported row"

theorem decode_encodeSmall (rows : List (StoredRow Int)) (bytes : Bytes)
    (h : encodeSmall rows = .ok bytes) : decodeSmall bytes = .ok rows := by
  dsimp only [encodeSmall] at h
  split at h
  next hd =>
    cases h
    exact hd
  next => cases h

def smallConfig : Config Int where
  codec := ⟨encodeSmall, decodeSmall, plainDigest, decode_encodeSmall⟩
  segmentRows := 10
  segmentRows_pos := by decide
  hotMaxRows := 100
  hotMaxBytes := 100000
  compactMinSegments := 2
  queryMaxOutputBytes := 100000
  limits := smallLimits

def emptyLive : Live Int where
  catalog := ⟨formatVersion, "0123456789abcdef0123456789abcdef".toList, 0, false, ∅, ∅, ∅, []⟩
  hot := []
  committed := []
  sequence := 0

def emptyDb : Db Int := ⟨emptyLive, emptyLive, [], ∅, 0, [], none⟩

theorem reachable_emptyDb : (machine smallConfig).Reachable emptyDb :=
  .init ⟨rfl, rfl, rfl, rfl, rfl, rfl, rfl, rfl⟩

def Db.drained (d : Db F) (out : Drained F) : Db F :=
  { d with
    live := install out.outputs d.live.sequence d.live
    root := install out.outputs d.live.sequence d.live
    log := d.log.drop d.log.length
    files := out.files
    generation := d.generation + 1 }

theorem step_drained {out : Drained F} (h : Inv config d)
    (hw : drain config d.live d.files = .ok out)
    (hv : validateManifest (install out.outputs d.live.sequence d.live).catalog = .ok ()) :
    Step config d .checkpoint (d.drained out) := by
  have hreplay : (d.log.take d.log.length).foldlM (applyRecord config.limits) d.root =
      .ok d.live := by
    rw [List.take_length]
    exact h.replay
  exact Step.checkpoint _ hreplay hw hv

def committing (d : Db Int) (o : Operation Int) : Db Int :=
  d.commit o (orElse (applyRecord smallLimits d.live o) d.live)

def draining (d : Db Int) : Db Int := d.drained (orElse (drain smallConfig d.live d.files) ⟨∅, ∅⟩)

theorem step_committing {d : Db Int} {o : Operation Int} (ho : o.Direct)
    (h : (applyRecord smallLimits d.live o).toOption.isSome = true) :
    Step smallConfig d .commit (committing d o) :=
  Step.commit ho (ok_orElse h)

theorem step_draining {d : Db Int} (h : Inv smallConfig d)
    (hw : (drain smallConfig d.live d.files).toOption.isSome = true)
    (hv : validateManifest (draining d).live.catalog = .ok ()) :
    Step smallConfig d .checkpoint (draining d) :=
  step_drained h (ok_orElse hw) hv

def tableConfig : TableConfig := ⟨1, 1000, none, none, none, [60], some 100, none⟩

def appendAt (timestampUs value : Int) : Operation Int :=
  .append [⟨"t".toList, [rowAt timestampUs value]⟩]

def oneSegment : Db Int :=
  draining (committing (committing emptyDb (.createTable "t".toList tableConfig)) (appendAt 12 5))

theorem reachable_oneSegment : (machine smallConfig).Reachable oneSegment := by
  have hmade := reachable_emptyDb.step (step_committing (d := emptyDb)
    (o := .createTable "t".toList tableConfig) trivial (by decide +kernel))
  have hrow := hmade.step (step_committing (o := appendAt 12 5) trivial (by decide +kernel))
  exact hrow.step (step_draining (inv_reachable hrow) (by decide +kernel) (by decide +kernel))

def twoSegments : Db Int := draining (committing oneSegment (appendAt 17 3))

theorem reachable_twoSegments : (machine smallConfig).Reachable twoSegments := by
  have hrow := reachable_oneSegment.step (step_committing (o := appendAt 17 3) trivial
    (by decide +kernel))
  exact hrow.step (step_draining (inv_reachable hrow) (by decide +kernel) (by decide +kernel))

theorem twoSegments_checkpointed : twoSegments.live.Checkpointed := rfl

def smallPlan : Plan :=
  (compactionPlan smallConfig twoSegments.live.catalog.tables).getD ⟨[], tableConfig, []⟩

def smallOutputs : Outputs Int :=
  orElse (do
    let rows ← readSelected smallConfig twoSegments.files smallPlan.selected
    writePartitioned smallConfig smallPlan.config twoSegments.files rows) ⟨∅, []⟩

def smallNext : Live Int :=
  orElse (compacted smallPlan smallOutputs.segments twoSegments.live) twoSegments.live

def writtenDb : Db Int :=
  { twoSegments with
    files := smallOutputs.files
    compaction := some (.written smallPlan smallOutputs.segments) }

def preparedDb : Db Int :=
  { writtenDb with
    compaction := some (.prepared smallPlan smallOutputs.segments writtenDb.live smallNext
      writtenDb.generation) }

theorem reachable_preparedDb : (machine smallConfig).Reachable preparedDb := by
  have hplan : compactionPlan smallConfig twoSegments.live.catalog.tables = some smallPlan := by
    have hsome : (compactionPlan smallConfig twoSegments.live.catalog.tables).isSome = true := by
      decide +kernel
    rw [smallPlan]
    cases h : compactionPlan smallConfig twoSegments.live.catalog.tables with
    | none =>
      rw [h] at hsome
      cases hsome
    | some plan => rfl
  have hwrite : (do
      let rows ← readSelected smallConfig twoSegments.files smallPlan.selected
      writePartitioned smallConfig smallPlan.config twoSegments.files rows) = .ok smallOutputs :=
    ok_orElse (by decide +kernel)
  obtain ⟨rows, hread, hwrite⟩ := bind_ok.mp hwrite
  have hnext : compacted smallPlan smallOutputs.segments twoSegments.live = .ok smallNext :=
    ok_orElse (by decide +kernel)
  obtain ⟨t, ht, -⟩ := compacted_ok hnext
  obtain ⟨u, hu, hconf, hsub, -⟩ := compactionPlan_ok hplan
  obtain rfl := Option.some.inj (hu.symm.trans ht)
  have hnone : twoSegments.compaction = none := Option.isNone_iff_eq_none.mp (by decide +kernel)
  have hvalid : validateManifest smallNext.catalog = .ok () := by decide +kernel
  have hplanned := reachable_twoSegments.step (Step.plan hnone twoSegments_checkpointed hplan)
  have hwritten : (machine smallConfig).Reachable writtenDb :=
    hplanned.step (Step.write rfl hread hwrite)
  have hsel : ∀ seg ∈ smallPlan.selected, seg ∈ u.segments := fun seg hs => hsub.subset hs
  have hfreeze : Step smallConfig writtenDb .freeze preparedDb :=
    Step.freeze rfl twoSegments_checkpointed ht hconf hsel hnext hvalid
  exact hwritten.step hfreeze

theorem compaction_preserves_twoSegments :
    ∃ d d', (machine smallConfig).Reachable d ∧ Step smallConfig d .publish d' ∧
      d.segmentCount = 2 ∧ d'.segmentCount = 1 ∧
      ∃ plan outputs t, Published d d' plan outputs t := by
  have hstep : Step smallConfig preparedDb .publish
      { preparedDb.publish smallNext with compaction := none } :=
    Step.publish rfl rfl twoSegments_checkpointed
  exact ⟨preparedDb, _, reachable_preparedDb, hstep, by decide +kernel, by decide +kernel,
    (compaction_preserves reachable_preparedDb).1 _ hstep⟩

end

end Varve.Store
