import Varve.Lib.Run
import Varve.Engine.Catalog

/-!
# The rollups of a table

How one table of a database keeps its rollups.
-/

namespace Varve.Rollup

open Engine
open Result (ensure)
open Text (len)

variable {F : Type} [F64 F]

structure Updates (F : Type) where
  rows : Map (RollupRow F)
  bytes : Nat

/-- The body of the inner loop of `aggregate_updates`. -/
def updateWidth (t : Table F) (row : Row F) (sequence ordinal byteBudget : Nat)
    (lookup : Text → Option (RollupRow F)) (updates : Updates F) (width : Int) :
    Except String (Updates F) := do
  let bucket ← windowStart row.timestampUs width
  if ∃ cutoff ∈ t.rollupCutoffUs, saturatingAdd bucket width ≤ cutoff then .ok updates else
  let key := rollupKey width bucket row.tenant row.series row.tags
  let bytes := if updates.rows[key]?.isSome then updates.bytes
    else updates.bytes + len key + row.estimatedBytes * 2 + 256
  ensure (updates.rows[key]?.isSome ∨ bytes ≤ byteBudget)
    "rollup update metadata byte budget exceeded"
  let agg ← match updates.rows[key]?.or (lookup key) with
    | some agg => agg.addBorrowedRollup row sequence ordinal
    | none => .ok (RollupRow.single width bucket row sequence ordinal)
  .ok ⟨updates.rows.insert key agg, bytes⟩

def aggregateUpdates (t : Table F) (rows : List (Row F)) (sequence ordinal byteBudget : Nat)
    (lookup : Text → Option (RollupRow F)) : Except String (Map (RollupRow F)) := do
  let updates ← (rows.zipIdx ordinal).foldlM (fun updates (row, ordinal) =>
    t.config.rollupWidthsUs.foldlM (updateWidth t row sequence ordinal byteBudget lookup) updates)
    ⟨∅, 0⟩
  .ok updates.rows

structure Backfill (F : Type) where
  output : Map (RollupRow F)
  resident : Nat

/-- The body of the loop of `aggregate_width`. -/
def backfillRow (width : Int) (cutoffUs : Option Int) (byteBudget : Nat) (b : Backfill F)
    (stored : StoredRow F) : Except String (Backfill F) := do
  if ∃ cutoff ∈ cutoffUs, stored.row.timestampUs < cutoff then .ok b else
  let bucket ← windowStart stored.row.timestampUs width
  let key := rollupKey width bucket stored.row.tenant stored.row.series stored.row.tags
  let b' ← match b.output[key]? with
    | some row => do
      let row ← row.add stored
      .ok { b with output := b.output.insert key row }
    | none => do
      let row ← RollupRow.fromRow width stored
      let resident := b.resident + rollupResidentBytes key row
      ensure (resident ≤ byteBudget) "derived backfill resident budget exceeded"
      .ok ⟨b.output.insert key row, resident⟩
  ensure (len (b'.output.json RollupRow.json) ≤ byteBudget)
    "aggregate backfill exceeds metadata budget"
  .ok b'

def aggregateWidth (width : Int) (cutoffUs : Option Int) (byteBudget : Nat)
    (output : Map (RollupRow F)) (rows : List (StoredRow F)) :
    Except String (Map (RollupRow F)) := do
  let b ← rows.foldlM (backfillRow width cutoffUs byteBudget)
    ⟨output, output.total rollupResidentBytes⟩
  .ok b.output

-- Records

/-- One table and the aggregates of its database. `raw` are the rows in its hot
batches and segments, in any order; `committed` are all the rows ever appended. -/
structure Source (F : Type) where
  name : Text
  table : Table F
  aggregates : Map ContinuousAggregate
  raw : List (StoredRow F)
  committed : List (StoredRow F)
  sequence : Nat

structure AppendItem (F : Type) where
  table : Text
  rows : List (Row F)

inductive Operation (F : Type) where
  | append (items : List (AppendItem F))
  | setPolicy (table : Text) (policy : LifecyclePolicy)
  | createContinuousAggregate (aggregate : ContinuousAggregate) (backfill : Map (RollupRow F))
  | dropContinuousAggregate (name : Text)
  | other

def stored (sequence ordinal : Nat) (rows : List (Row F)) : List (StoredRow F) :=
  (rows.zipIdx ordinal).map fun (row, ordinal) => ⟨row, sequence, ordinal⟩

/-- The limits that apply to a record: `max_batch_rows` and the budget of rollup updates. -/
structure Limits where
  maxBatchRows : Nat
  updateBudget : Nat

def preflightRow (t : Table F) (row : Row F) : Except String Unit := do
  row.validate
  let _ ← windowStart row.timestampUs t.config.windowUs
  ensure (∀ cutoff ∈ t.cutoffUs, cutoff ≤ row.timestampUs) "WAL violates retention cutoff"

def appendRows (limits : Limits) (sequence ordinal : Nat) (rows : List (Row F)) (s : Source F) :
    Except String (Source F) := do
  rows.forM (preflightRow s.table)
  let updates ← aggregateUpdates s.table rows sequence ordinal limits.updateBudget
    (s.table.rollups[·]?)
  .ok { s with
    table := { s.table with rollups := s.table.rollups ∪ updates }
    raw := s.raw ++ stored sequence ordinal rows
    committed := s.committed ++ stored sequence ordinal rows }

/-- The items of a group in turn; the ordinals of a record run through all of them. -/
def appendItems (limits : Limits) (sequence : Nat) :
    Nat → List (AppendItem F) → Source F → Except String (Source F)
  | _, [], s => .ok s
  | ordinal, item :: items, s => do
    ensure (ordinal + item.rows.length ≤ limits.maxBatchRows)
      "WAL group exceeds recovery row budget"
    let s' ← if item.table = s.name then appendRows limits sequence ordinal item.rows s else .ok s
    appendItems limits sequence (ordinal + item.rows.length) items s'

def setPolicy (policy : LifecyclePolicy) (t : Table F) : Except String (Table F) := do
  policy.validate
  ensure (t.config.idempotencyWindowUs.isNone ∨ policy.idempotencyWindowUs.isSome)
    "timed idempotency cannot be disabled after cutover"
  let config := { t.config with
    lateAfterUs := policy.lateAfterUs
    retentionUs := policy.retentionUs
    archiveAfterUs := policy.archiveAfterUs
    rollupRetentionUs := policy.rollupRetentionUs
    idempotencyWindowUs := policy.idempotencyWindowUs }
  config.validate
  .ok { t with creationConfig := some (t.creationConfig.getD t.config), config := config }

def activateWidth (width : Int) (config : TableConfig) : Except String TableConfig := do
  if width ∈ config.rollupWidthsUs then .ok config else
  ensure (config.rollupWidthsUs.length < 16) "at most 16 active rollup widths per table"
  .ok { config with rollupWidthsUs := (config.rollupWidthsUs ++ [width]).insertionSort (· ≤ ·) }

def activate (width : Int) (backfill : Map (RollupRow F)) (t : Table F) :
    Except String (Table F) := do
  let config ← activateWidth width t.config
  ensure (∀ p ∈ backfill.toList, p.2.widthUs = width) "aggregate backfill has the wrong width"
  .ok { t with
    creationConfig := some (t.creationConfig.getD t.config)
    config := config
    rollups := t.rollups ∪ backfill }

/-- A width leaves with its last aggregate, unless the table was created with it. -/
def deactivate (width : Int) (shared : Bool) (t : Table F) : Table F :=
  if !shared ∧ width ∉ (t.creationConfig.getD t.config).rollupWidthsUs then { t with
    config := { t.config with rollupWidthsUs := t.config.rollupWidthsUs.filter (· ≠ width) }
    rollups := t.rollups.filter fun _ row => row.widthUs ≠ width }
  else t

def applyOperation (limits : Limits) (s : Source F) :
    Operation F → Except String (Source F)
  | .append items => appendItems limits (s.sequence + 1) 0 items s
  | .setPolicy table policy =>
    if table = s.name then do .ok { s with table := ← setPolicy policy s.table } else .ok s
  | .createContinuousAggregate aggregate backfill => do
    validateName aggregate.name
    ensure (0 < aggregate.widthUs ∧ aggregate.createdSequence = s.sequence + 1)
      "invalid aggregate WAL metadata"
    ensure (aggregate.name ≠ s.name) "aggregate name collides with a table"
    ensure s.aggregates[aggregate.name]?.isNone "duplicate or colliding aggregate creation"
    let table ← if aggregate.source = s.name then activate aggregate.widthUs backfill s.table
      else .ok s.table
    .ok { s with table := table, aggregates := s.aggregates.insert aggregate.name aggregate }
  | .dropContinuousAggregate name => do
    let aggregate ← context s.aggregates[name]? "aggregate does not exist"
    let aggregates := s.aggregates.erase name
    let shared := aggregates.toList.any fun p =>
      p.2.source = aggregate.source && p.2.widthUs = aggregate.widthUs
    .ok { s with
      aggregates := aggregates
      table := if aggregate.source = s.name then deactivate aggregate.widthUs shared s.table
        else s.table }
  | .other => .ok s

/-- One record of the log, applied by a commit and by a replay alike. -/
def applyRecord (limits : Limits) (s : Source F) (operation : Operation F) :
    Except String (Source F) := do
  let s' ← applyOperation limits s operation
  .ok { s' with sequence := s.sequence + 1 }

def nextCutoff (nowUs : Int) (age cutoffUs : Option Int) : Option Int :=
  match age with
  | some age => some (max (checkedCutoff nowUs age) (cutoffUs.getD i64Min))
  | none => cutoffUs

def above (cutoffUs : Option Int) (r : StoredRow F) : Bool :=
  decide (∀ cutoff ∈ cutoffUs, cutoff ≤ r.row.timestampUs)

/-- Segments wholly below the cutoff go and those that cross it are rewritten, so the rows kept
are those above it. -/
def retained (nowUs : Int) (s : Source F) : Source F :=
  let cutoff := nextCutoff nowUs s.table.config.retentionUs s.table.cutoffUs
  let rollupCutoff := nextCutoff nowUs s.table.config.rollupRetentionUs s.table.rollupCutoffUs
  { s with
    raw := if s.table.config.retentionUs.isSome then
        s.raw.filter (above cutoff)
      else s.raw
    table := { s.table with
      cutoffUs := cutoff
      rollupCutoffUs := rollupCutoff
      rollups := if s.table.config.rollupRetentionUs.isSome then
          s.table.rollups.filter fun _ row =>
            ∀ c ∈ rollupCutoff, c < saturatingAdd row.bucketUs row.widthUs
        else s.table.rollups } }

/-- The new catalog is only published when a cutoff moved or a segment lost rows, in this table or
in `others`. -/
def retention (nowUs : Int) (others : Bool) (s : Source F) : Source F :=
  let next := retained nowUs s
  if others ∨ next.table.cutoffUs ≠ s.table.cutoffUs ∨
      next.table.rollupCutoffUs ≠ s.table.rollupCutoffUs ∨ next.raw.length ≠ s.raw.length then next
  else s

-- Runs

/-- A `create_continuous_aggregate` between its two turns under the lock: the segments it
pinned, in parts, and the rollups of the width it found. -/
structure Pending (F : Type) where
  name : Text
  widthUs : Int
  barrier : Nat
  cutoffUs : Option Int
  segments : List (List (StoredRow F))
  existing : Map (RollupRow F)
  byteBudget : Nat

def Pending.backfill (p : Pending F) : Except String (Map (RollupRow F)) :=
  if p.existing.isEmpty then
    p.segments.foldlM (aggregateWidth p.widthUs p.cutoffUs p.byteBudget) p.existing
  else .ok p.existing

structure Captured (s : Source F) (p : Pending F) : Prop where
  width : 0 < p.widthUs
  barrier : p.barrier = s.sequence
  cutoff : p.cutoffUs = s.table.cutoffUs
  segments : p.segments.flatten.Perm s.raw
  existing : p.existing = if p.widthUs ∈ s.table.config.rollupWidthsUs then
    s.table.rollups.filter fun _ row => row.widthUs = p.widthUs else ∅

structure Db (F : Type) where
  live : Source F
  root : Source F
  log : List (Operation F)
  pending : List (Pending F)

def Pending.operation (p : Pending F) (source : Text) (sequence : Nat)
    (backfill : Map (RollupRow F)) : Operation F :=
  .createContinuousAggregate ⟨p.name, source, p.widthUs, sequence⟩ backfill

/-- An operation a caller may commit directly: an aggregate on this table is created through
its two turns. -/
def Operation.Direct (name : Text) : Operation F → Prop
  | .createContinuousAggregate aggregate _ => aggregate.source ≠ name
  | _ => True

inductive Step (limits : Limits) : Db F → Db F → Prop where
  | commit {d : Db F} {o : Operation F} {s : Source F} (ho : o.Direct d.live.name)
      (h : applyRecord limits d.live o = .ok s) :
      Step limits d { d with live := s, log := d.log ++ [o] }
  | capture {d : Db F} {p : Pending F} (h : Captured d.live p) :
      Step limits d { d with root := d.live, log := [], pending := p :: d.pending }
  | create {d : Db F} {p : Pending F} {backfill : Map (RollupRow F)} {s : Source F}
      (hp : p ∈ d.pending) (hb : p.backfill = .ok backfill) (hs : d.live.sequence = p.barrier)
      (h : applyRecord limits d.live
        (p.operation d.live.name (d.live.sequence + 1) backfill) = .ok s) :
      Step limits d { d with
        live := s
        log := d.log ++ [p.operation d.live.name (d.live.sequence + 1) backfill] }
  | checkpoint {d : Db F} {s : Source F} (n : Nat)
      (h : (d.log.take n).foldlM (applyRecord limits) d.root = .ok s) :
      Step limits d { d with root := s, log := d.log.drop n }
  | retain {d : Db F} (nowUs : Int) (others : Bool) (hnow : nowUs ≤ i64Max) (h : d.log = []) :
      Step limits d { d with
        live := retention nowUs others d.live
        root := retention nowUs others d.live }
  | reopen {d : Db F} {s : Source F} (h : d.log.foldlM (applyRecord limits) d.root = .ok s) :
      Step limits d { d with live := s, pending := [] }

structure Created (d : Db F) : Prop where
  config : d.live.table.config.validate = .ok ()
  table : d.live.table = emptyTable d.live.table.config d.live.sequence
  raw : d.live.raw = []
  committed : d.live.committed = []
  aggregates : ∀ (name : Text) (a : ContinuousAggregate),
    d.live.aggregates[name]? = some a → a.source ≠ d.live.name
  root : d.root = d.live
  log : d.log = []
  pending : d.pending = []

def machine (F : Type) [F64 F] (limits : Limits) : Machine (Db F) Unit where
  init := Created
  step d _ d' := Step limits d d'

end Varve.Rollup
