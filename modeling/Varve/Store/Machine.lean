import Varve.Store.Segments

/-!
# A database and its maintenance

Tables with their segments and hot rows, the records that change them, and the steps that move rows
between files.
-/

namespace Varve.Store

open Engine
open Result (ensure)

variable {F : Type} [F64 F] [DecidableEq F]

-- Records

/-- A catalog with the rows not yet in segments, under the names of their tables. `committed`
are all the rows ever appended. -/
structure Live (F : Type) where
  catalog : Manifest F
  hot : List (Text × StoredRow F)
  committed : List (Text × StoredRow F)
  sequence : Nat

def rowsOf (name : Text) (rows : List (Text × StoredRow F)) : List (StoredRow F) :=
  (rows.filter fun p => p.1 = name).map Prod.snd

inductive Operation (F : Type) where
  | createTable (name : Text) (config : TableConfig)
  | append (items : List (Rollup.AppendItem F))
  | setPolicy (table : Text) (policy : LifecyclePolicy)
  | createContinuousAggregate (aggregate : ContinuousAggregate) (backfill : Map (RollupRow F))
  | dropContinuousAggregate (name : Text)
  | other

def modifyTable (name : Text) (missing : String) (f : Table F → Except String (Table F))
    (c : Manifest F) : Except String (Manifest F) := do
  let t ← context c.tables[name]? missing
  let t' ← f t
  .ok { c with tables := c.tables.insert name t' }

def addRows (limits : Rollup.Limits) (sequence ordinal : Nat) (rows : List (Row F))
    (t : Table F) : Except String (Table F) := do
  rows.forM (Rollup.preflightRow t)
  let updates ← Rollup.aggregateUpdates t rows sequence ordinal limits.updateBudget
    (t.rollups[·]?)
  .ok { t with rollups := t.rollups ∪ updates }

def tagged (item : Rollup.AppendItem F) (sequence ordinal : Nat) : List (Text × StoredRow F) :=
  (Rollup.stored sequence ordinal item.rows).map fun r => (item.table, r)

def appendItems (limits : Rollup.Limits) (sequence : Nat) :
    Nat → List (Rollup.AppendItem F) → Live F → Except String (Live F)
  | _, [], s => .ok s
  | ordinal, item :: items, s => do
    ensure (ordinal + item.rows.length ≤ limits.maxBatchRows)
      "WAL group exceeds recovery row budget"
    let catalog ← modifyTable item.table "WAL references unknown table"
      (addRows limits sequence ordinal item.rows) s.catalog
    appendItems limits sequence (ordinal + item.rows.length) items { s with
      catalog := catalog
      hot := s.hot ++ tagged item sequence ordinal
      committed := s.committed ++ tagged item sequence ordinal }

def dropWidth (aggregate : ContinuousAggregate) (aggregates : Map ContinuousAggregate)
    (t : Table F) : Except String (Table F) :=
  let shared := aggregates.toList.any fun p =>
    p.2.source = aggregate.source && p.2.widthUs = aggregate.widthUs
  .ok (Rollup.deactivate aggregate.widthUs shared t)

def applyOperation (limits : Rollup.Limits) (s : Live F) : Operation F → Except String (Live F)
  | .createTable name config => do
    validateName name
    config.validate
    ensure (s.catalog.tables[name]?.isNone ∧ s.catalog.continuousAggregates[name]?.isNone ∧
      s.catalog.jobs[name]?.isNone) "duplicate or colliding table creation in WAL"
    .ok { s with catalog := { s.catalog with
      tables := s.catalog.tables.insert name (emptyTable config (s.sequence + 1)) } }
  | .append items => appendItems limits (s.sequence + 1) 0 items s
  | .setPolicy table policy => do
    let catalog ← modifyTable table "policy references unknown table"
      (Rollup.setPolicy policy) s.catalog
    .ok { s with catalog := catalog }
  | .createContinuousAggregate aggregate backfill => do
    validateName aggregate.name
    ensure (0 < aggregate.widthUs ∧ aggregate.createdSequence = s.sequence + 1)
      "invalid aggregate WAL metadata"
    ensure s.catalog.tables[aggregate.name]?.isNone "aggregate name collides with a table"
    ensure (s.catalog.continuousAggregates[aggregate.name]?.isNone ∧
      s.catalog.jobs[aggregate.name]?.isNone) "duplicate or colliding aggregate creation"
    let catalog ← modifyTable aggregate.source "aggregate source table missing"
      (Rollup.activate aggregate.widthUs backfill) s.catalog
    .ok { s with catalog := { catalog with
      continuousAggregates := s.catalog.continuousAggregates.insert aggregate.name aggregate } }
  | .dropContinuousAggregate name => do
    let aggregate ← context s.catalog.continuousAggregates[name]? "aggregate does not exist"
    let aggregates := s.catalog.continuousAggregates.erase name
    let catalog ← modifyTable aggregate.source "aggregate source table missing"
      (dropWidth aggregate aggregates) s.catalog
    .ok { s with catalog := { catalog with continuousAggregates := aggregates } }
  | .other => .ok s

/-- One record of the log, applied by a commit and by a replay alike. -/
def applyRecord (limits : Rollup.Limits) (s : Live F) (o : Operation F) :
    Except String (Live F) := do
  let s' ← applyOperation limits s o
  .ok { s' with sequence := s.sequence + 1 }

structure Drained (F : Type) where
  files : Files F
  outputs : Map (List Segment)

def drainTable (config : Config F) (hot : List (Text × StoredRow F)) (a : Drained F)
    (entry : Text × Table F) : Except String (Drained F) := do
  let written ← writePartitioned config entry.2.config a.files (rowsOf entry.1 hot)
  .ok ⟨written.files, a.outputs.insert entry.1 written.segments⟩

/-- The hot rows of every table, written to segments. -/
def drain (config : Config F) (s : Live F) (files : Files F) : Except String (Drained F) :=
  s.catalog.tables.toList.foldlM (drainTable config s.hot) ⟨files, ∅⟩

def addSegments (segments : List Segment) (t : Table F) : Table F :=
  { t with segments := t.segments ++ segments }

def installCatalog (outputs : Map (List Segment)) (sequence : Nat) (c : Manifest F) : Manifest F :=
  { c with
    checkpointSequence := sequence
    tables := c.tables.map fun name t => addSegments (outputs[name]?.getD []) t }

/-- The segments of a checkpoint take the place of the rows up to its sequence. -/
def install (outputs : Map (List Segment)) (sequence : Nat) (s : Live F) : Live F :=
  { s with
    catalog := installCatalog outputs sequence s.catalog
    hot := s.hot.filter fun p => sequence < p.2.sequence }

/-- A `create_continuous_aggregate` between its two turns. -/
structure Backfill (F : Type) where
  source : Text
  pending : Rollup.Pending F

def captureBackfill (s : Live F) (files : Files F) (name source : Text) (widthUs : Int)
    (byteBudget : Nat) : Except String (Backfill F) := do
  ensure (0 < widthUs) "aggregate width_us must be positive"
  let t ← context s.catalog.tables[source]? "unknown source table"
  let segments ← t.segments.mapM (readRawSegment granted files)
  .ok
    { source := source
      pending :=
        { name := name
          widthUs := widthUs
          barrier := s.sequence
          cutoffUs := t.cutoffUs
          segments := segments
          existing := if widthUs ∈ t.config.rollupWidthsUs then
            t.rollups.filter fun _ row => row.widthUs = widthUs else ∅
          byteBudget := byteBudget } }

/-- A compaction between its turns. Once prepared it holds the root it captured, the root to
publish and the generation of its stamp. -/
inductive Compaction (F : Type) where
  | planned (plan : Plan)
  | written (plan : Plan) (outputs : List Segment)
  | prepared (plan : Plan) (outputs : List Segment) (captured next : Live F) (generation : Nat)

def Compaction.pins : Compaction F → List Text
  | planned plan => plan.selected.map Segment.id
  | written plan outputs => (plan.selected ++ outputs).map Segment.id
  | prepared plan outputs _ _ _ => (plan.selected ++ outputs).map Segment.id

/-- The captured root with the selected segments replaced. -/
def compacted (plan : Plan) (outputs : List Segment) (s : Live F) : Except String (Live F) := do
  let catalog ← modifyTable plan.name "compaction table disappeared"
    (fun t => .ok (replaceSegments plan outputs t)) s.catalog
  .ok { s with catalog := catalog }

-- Steps

structure Db (F : Type) where
  live : Live F
  root : Live F
  log : List (Operation F)
  files : Files F
  generation : Nat
  backfills : List (Backfill F)
  compaction : Option (Compaction F)

def Backfill.operation (b : Backfill F) (sequence : Nat) (rollups : Map (RollupRow F)) :
    Operation F :=
  .createContinuousAggregate ⟨b.pending.name, b.source, b.pending.widthUs, sequence⟩ rollups

/-- An operation a caller may commit directly: an aggregate is created through its two turns. -/
def Operation.Direct : Operation F → Prop
  | .createContinuousAggregate _ _ => False
  | _ => True

/-- Whether a backfill has a rollup that the retention of its table is past. -/
def Live.outlived (s : Live F) (source : Text) (rollups : Map (RollupRow F)) : Bool :=
  (s.catalog.tables[source]?.bind Table.rollupCutoffUs).any fun cutoff =>
    rollups.toList.any fun entry =>
      decide (saturatingAdd entry.2.bucketUs entry.2.widthUs ≤ cutoff)

def Live.segmentIds (s : Live F) : List Text :=
  s.catalog.tables.toList.flatMap fun entry => entry.2.segments.map Segment.id

def Db.pinned (d : Db F) : List Text := d.compaction.elim [] Compaction.pins

def Db.commit (d : Db F) (o : Operation F) (s : Live F) : Db F :=
  { d with live := s, log := d.log ++ [o], generation := d.generation + 1 }

def Db.publish (d : Db F) (s : Live F) : Db F :=
  { d with live := s, root := s, log := [], generation := d.generation + 1 }

def Db.trim (d : Db F) (a : Sweep F) : Db F :=
  { d.publish { d.live with catalog := { d.live.catalog with tables := a.tables } } with
    files := a.files }

/-- `create` says whether its backfill is outlived, `retain` its clock and what it removed. -/
inductive Label where
  | commit
  | capture
  | create (outlived : Bool)
  | checkpoint
  | retain (nowUs : Int) (removed : Nat)
  | reopen
  | collect
  | plan
  | write
  | freeze
  | publish
  | abandon
deriving DecidableEq

/-- The steps of `compact_prepared`, and the collection that follows it. -/
def Label.compacts : Label → Bool
  | collect | plan | write | freeze | publish | abandon => true
  | _ => false

def Live.Checkpointed (s : Live F) : Prop := s.catalog.checkpointSequence = s.sequence

inductive Step (config : Config F) : Db F → Label → Db F → Prop where
  | commit {d : Db F} {o : Operation F} {s : Live F} (ho : o.Direct)
      (h : applyRecord config.limits d.live o = .ok s) : Step config d .commit (d.commit o s)
  | capture {d : Db F} {b : Backfill F} {name source : Text} {widthUs : Int} {byteBudget : Nat}
      (hc : d.live.Checkpointed)
      (h : captureBackfill d.live d.files name source widthUs byteBudget = .ok b) :
      Step config d .capture { d with backfills := b :: d.backfills }
  | create {d : Db F} {b : Backfill F} {rollups : Map (RollupRow F)} {s : Live F}
      (hb : b ∈ d.backfills) (hr : b.pending.backfill = .ok rollups)
      (hs : d.live.sequence = b.pending.barrier)
      (h : applyRecord config.limits d.live (b.operation (d.live.sequence + 1) rollups) = .ok s) :
      Step config d (.create (d.live.outlived b.source rollups))
        (d.commit (b.operation (d.live.sequence + 1) rollups) s)
  | checkpoint {d : Db F} {s : Live F} {out : Drained F} (n : Nat)
      (h : (d.log.take n).foldlM (applyRecord config.limits) d.root = .ok s)
      (hw : drain config s d.files = .ok out)
      (hv : validateManifest (install out.outputs s.sequence s).catalog = .ok ()) :
      Step config d .checkpoint { d with
        live := install out.outputs s.sequence d.live
        root := install out.outputs s.sequence s
        log := d.log.drop n
        files := out.files
        generation := d.generation + 1 }
  | retain {d : Db F} {a : Sweep F} {nowUs : Int} (hnow : nowUs ≤ i64Max)
      (hh : hasRetention d.live.catalog.tables = true) (hc : d.live.Checkpointed)
      (h : retainTables config nowUs d.live.catalog.tables d.files = .ok a)
      (hch : a.changed = true)
      (hv : validateManifest { d.live.catalog with tables := a.tables } = .ok ()) :
      Step config d (.retain nowUs a.removed) (d.trim a)
  /-- A reopening that gets through the checks on the root and replays the log. -/
  | reopen {d : Db F} {s : Live F} (h : d.log.foldlM (applyRecord config.limits) d.root = .ok s) :
      Step config d .reopen { d with
        live := s, generation := 0, backfills := [], compaction := none }
  | collect {d : Db F} (keep : Text → Bool)
      (h : ∀ t ∈ d.live.segmentIds ++ d.pinned, keep t = true) :
      Step config d .collect { d with files := d.files.filter fun t _ => keep t }
  | plan {d : Db F} {plan : Plan} (hn : d.compaction = none) (hc : d.live.Checkpointed)
      (h : compactionPlan config d.live.catalog.tables = some plan) :
      Step config d .plan { d with compaction := some (.planned plan) }
  | write {d : Db F} {plan : Plan} {rows : List (StoredRow F)} {out : Outputs F}
      (hp : d.compaction = some (.planned plan))
      (hr : readSelected config d.files plan.selected = .ok rows)
      (hw : writePartitioned config plan.config d.files rows = .ok out) :
      Step config d .write { d with
        files := out.files, compaction := some (.written plan out.segments) }
  | freeze {d : Db F} {plan : Plan} {outputs : List Segment} {t : Table F} {next : Live F}
      (hp : d.compaction = some (.written plan outputs)) (hc : d.live.Checkpointed)
      (ht : d.live.catalog.tables[plan.name]? = some t) (hconf : t.config = plan.config)
      (hs : ∀ seg ∈ plan.selected, seg ∈ t.segments)
      (hn : compacted plan outputs d.live = .ok next)
      (hv : validateManifest next.catalog = .ok ()) :
      Step config d .freeze { d with
        compaction := some (.prepared plan outputs d.live next d.generation) }
  | publish {d : Db F} {plan : Plan} {outputs : List Segment} {captured next : Live F}
      (hp : d.compaction = some (.prepared plan outputs captured next d.generation))
      (hs : captured.sequence = d.live.sequence) (hc : d.live.Checkpointed) :
      Step config d .publish { d.publish next with compaction := none }
  | abandon {d : Db F} : Step config d .abandon { d with compaction := none }

structure Created (d : Db F) : Prop where
  tables : d.live.catalog.tables = ∅
  hot : d.live.hot = []
  committed : d.live.committed = []
  checkpointed : d.live.Checkpointed
  root : d.root = d.live
  log : d.log = []
  backfills : d.backfills = []
  compaction : d.compaction = none

def machine (config : Config F) : Machine (Db F) Label where
  init := Created
  step d l d' := Step config d l d'

def Db.table (d : Db F) (name : Text) : Option (Table F) := d.live.catalog.tables[name]?

/-- The rows of a list of segments, as their files have them. -/
def segmentRows (files : Files F) (segments : List Segment) : List (StoredRow F) :=
  segments.flatMap fun seg => (files[seg.id]?).getD []

def Db.rows (d : Db F) (name : Text) : List (StoredRow F) :=
  segmentRows d.files ((d.table name).elim [] Table.segments) ++ rowsOf name d.live.hot

def Db.scan (config : Config F) (adm : Admission) (d : Db F) (name : Text) (q : Request) :
    Except String (List (StoredRow F)) := do
  ensure (∀ start ∈ q.startUs, ∀ stop ∈ q.endUs, start ≤ stop) "invalid half-open time range"
  adm.start
  let t ← context (d.table name) "unknown table"
  scanTable config adm d.files (rowsOf name d.live.hot) t q

end Varve.Store
