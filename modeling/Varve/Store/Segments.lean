import Varve.Engine.Partition
import Varve.Rollup.Source

/-!
# Segment files

The files of a database, the scans that read them, and what maintenance does with them.
-/

namespace Varve.Store

open Engine
open Result (ensure)

variable {F : Type}

structure Config (F : Type) where
  codec : Codec F
  segmentRows : Nat
  segmentRows_pos : 0 < segmentRows
  hotMaxRows : Nat
  hotMaxBytes : Nat
  compactMinSegments : Nat
  queryMaxOutputBytes : Nat
  limits : Rollup.Limits

abbrev Files (F : Type) := Map (List (StoredRow F))

def decodedBytes (rows : List (StoredRow F)) : Nat := (rows.map fun r => r.row.estimatedBytes).sum

/-- `admits` is the reservation of its rows and of the decoder, and the resolution of the segment
to a local file. -/
def readRawSegment (admits : Segment → Except String Unit) (files : Files F) (seg : Segment) :
    Except String (List (StoredRow F)) := do
  ensure (0 < seg.decodedBytes) "segment missing decoded-size bound"
  admits seg
  let rows ← context files[seg.id]? "cold segment requires remote store"
  ensure (rows.length = seg.rows) "segment row-count mismatch"
  ensure (decodedBytes rows = seg.decodedBytes) "segment decoded-size metadata mismatch"
  .ok rows

variable [DecidableEq F]

/-- Nothing is refused: maintenance that is refused memory or a file is a step not taken. -/
def granted (_ : Segment) : Except String Unit := .ok ()

/-- A file is only ever written once: a second write must bring the same rows. -/
def stage (codec : Codec F) (files : Files F) (w : Written F) : Except String (Files F) := do
  let rows ← codec.decode w.bytes
  match files[w.descriptor.id]? with
  | some existing => do
    ensure (existing = rows) "immutable local segment collision"
    .ok files
  | none => .ok (files.insert w.descriptor.id rows)

structure Outputs (F : Type) where
  files : Files F
  segments : List Segment

def writePartitioned (config : Config F) (table : TableConfig) (files : Files F)
    (rows : List (StoredRow F)) : Except String (Outputs F) := do
  let written ← writePartitionedRows config.codec config.segmentRows table rows
  let files ← written.foldlM (stage config.codec) files
  .ok ⟨files, written.map Written.descriptor⟩

def Segment.key (seg : Segment) : PartitionKey := (seg.shard, seg.windowUs)

/-- The segments short of `segment_rows` by shard and window, in the order of the keys. -/
def groups (config : Config F) (segments : List Segment) : List (List Segment) :=
  let small := segments.filter fun seg => seg.rows < config.segmentRows
  let keys := (small.map fun seg => toLex (Segment.key seg)).dedup.insertionSort (· ≤ ·)
  keys.map fun key => small.filter fun seg => toLex (Segment.key seg) = key

/-- The candidates taken before the first that passes the row or byte limit. -/
def takeWithin (config : Config F) : Nat → Nat → List Segment → List Segment
  | _, _, [] => []
  | rowCount, bytes, seg :: rest =>
    if config.hotMaxRows < rowCount + seg.rows ∨ config.hotMaxBytes < bytes + seg.decodedBytes then
      []
    else seg :: takeWithin config (rowCount + seg.rows) (bytes + seg.decodedBytes) rest

def divCeil (n d : Nat) : Nat := (n + d - 1) / d

def rowCount (segments : List Segment) : Nat := (segments.map Segment.rows).sum

def chooseGroup (config : Config F) (candidates : List Segment) : Option (List Segment) :=
  let selected := takeWithin config 0 0 candidates
  if selected.length < config.compactMinSegments ∨
      selected.length ≤ divCeil (rowCount selected) config.segmentRows then none
  else some selected

structure Plan where
  name : Text
  config : TableConfig
  selected : List Segment

def planTable (config : Config F) (entry : Text × Table F) : Option Plan :=
  ((groups config entry.2.segments).findSome? (chooseGroup config)).map fun selected =>
    ⟨entry.1, entry.2.config, selected⟩

def compactionPlan (config : Config F) (tables : Map (Table F)) : Option Plan :=
  tables.toList.findSome? (planTable config)

/-- The rows of the segments to compact, within the limit on the working set. -/
def readSelected (config : Config F) (files : Files F) (selected : List Segment) :
    Except String (List (StoredRow F)) :=
  selected.foldlM (fun rows seg => do
    let batch ← readRawSegment granted files seg
    ensure (decodedBytes (rows ++ batch) ≤ config.hotMaxBytes)
      "compaction working set exceeds hot memory budget"
    .ok (rows ++ batch)) []

def replaceSegments (p : Plan) (outputs : List Segment) (t : Table F) : Table F :=
  let retired := p.selected.map Segment.id
  { t with segments := t.segments.filter (fun seg => seg.id ∉ retired) ++ outputs }

structure Swept (F : Type) where
  files : Files F
  segments : List Segment
  removed : Nat
  changed : Bool

def sweepSegment (config : Config F) (table : TableConfig) (cutoff : Int) (a : Swept F)
    (seg : Segment) : Except String (Swept F) :=
  if seg.maxTimestampUs < cutoff then
    .ok { a with removed := a.removed + seg.rows, changed := true }
  else if seg.minTimestampUs < cutoff then do
    ensure (seg.decodedBytes ≤ config.hotMaxBytes)
      "segment decoded working set exceeds hot memory budget; reopen with larger hot_max_bytes"
    let old ← readRawSegment granted a.files seg
    let rows := old.filter fun r => cutoff ≤ r.row.timestampUs
    let written ← writePartitioned config table a.files rows
    .ok ⟨written.files, a.segments ++ written.segments, a.removed + (seg.rows - rows.length), true⟩
  else .ok { a with segments := a.segments ++ [seg] }

def sweepTable (config : Config F) (nowUs : Int) (t : Table F) (a : Swept F) :
    Except String (Swept F) :=
  match t.config.retentionUs with
  | none => .ok { a with segments := t.segments }
  | some age =>
    let cutoff := max (checkedCutoff nowUs age) (t.cutoffUs.getD i64Min)
    t.segments.foldlM (sweepSegment config t.config cutoff)
      { a with segments := [], changed := a.changed || decide (t.cutoffUs ≠ some cutoff) }

structure Sweep (F : Type) where
  tables : Map (Table F)
  files : Files F
  removed : Nat
  changed : Bool

def keepRollups (nowUs : Int) (t : Table F) : Map (RollupRow F) :=
  match t.config.rollupRetentionUs with
  | none => t.rollups
  | some age =>
    let cutoff := max (checkedCutoff nowUs age) (t.rollupCutoffUs.getD i64Min)
    t.rollups.filter fun _ row => cutoff < saturatingAdd row.bucketUs row.widthUs

def retainTable (config : Config F) (nowUs : Int) (a : Sweep F) (entry : Text × Table F) :
    Except String (Sweep F) := do
  let t := entry.2
  let swept ← sweepTable config nowUs t ⟨a.files, [], a.removed, a.changed⟩
  let rollupCutoff := Rollup.nextCutoff nowUs t.config.rollupRetentionUs t.rollupCutoffUs
  .ok
    { tables := a.tables.insert entry.1 { t with
        segments := swept.segments
        cutoffUs := Rollup.nextCutoff nowUs t.config.retentionUs t.cutoffUs
        rollupCutoffUs := rollupCutoff
        rollups := keepRollups nowUs t }
      files := swept.files
      removed := swept.removed
      changed := swept.changed || decide (rollupCutoff ≠ t.rollupCutoffUs) }

def hasRetention (tables : Map (Table F)) : Bool :=
  tables.toList.any fun entry =>
    entry.2.config.retentionUs.isSome || entry.2.config.rollupRetentionUs.isSome

def retainTables (config : Config F) (nowUs : Int) (tables : Map (Table F)) (files : Files F) :
    Except String (Sweep F) :=
  tables.toList.foldlM (retainTable config nowUs) ⟨tables, files, 0, false⟩

structure Request where
  startUs : Option Int
  endUs : Option Int
  tenant : Option Text
  series : Option Text

/-- The later of the requested start and the retention cutoff. -/
def Request.start (q : Request) (cutoffUs : Option Int) : Option Int :=
  match q.startUs, cutoffUs with
  | some a, some b => some (max a b)
  | a, b => a.or b

def Request.Matches (q : Request) (start : Option Int) (r : StoredRow F) : Prop :=
  (∀ v ∈ start, v ≤ r.row.timestampUs) ∧ (∀ v ∈ q.endUs, r.row.timestampUs < v) ∧
    (∀ v ∈ q.tenant, r.row.tenant = v) ∧ (∀ v ∈ q.series, r.row.series = v)

instance (q : Request) (start : Option Int) (r : StoredRow F) : Decidable (q.Matches start r) :=
  inferInstanceAs (Decidable (_ ∧ _ ∧ _ ∧ _))

/-- Whether the descriptor of a segment leaves room for a matching row. -/
def Request.Keeps (q : Request) (start : Option Int) (shards : Nat) (seg : Segment) : Prop :=
  (∀ v ∈ start, ¬seg.maxTimestampUs < v) ∧ (∀ v ∈ q.endUs, ¬v ≤ seg.minTimestampUs) ∧
    ∀ tenant ∈ q.tenant, ∀ series ∈ q.series, seg.shard = shardFor tenant series shards

instance (q : Request) (start : Option Int) (shards : Nat) (seg : Segment) :
    Decidable (q.Keeps start shards seg) :=
  inferInstanceAs (Decidable (_ ∧ _ ∧ _))

/-- What a scan asks of the rest of the engine, which may refuse it: the memory of the output and
the health of the database at the start, the reading of a segment, and more memory for the output,
by the bytes it then has. -/
structure Admission where
  start : Except String Unit
  segment : Segment → Except String Unit
  output : Nat → Except String Unit

/-- `push_scan_row` over the rows of one source. -/
def pushRows (adm : Admission) (limit : Nat) (output rows : List (StoredRow F)) :
    Except String (List (StoredRow F)) :=
  rows.foldlM (fun output r => do
    ensure (decodedBytes output + r.row.estimatedBytes ≤ limit) "scan output budget exceeded"
    adm.output (decodedBytes output + r.row.estimatedBytes)
    .ok (output ++ [r])) output

def scanSegment (config : Config F) (adm : Admission) (files : Files F) (q : Request)
    (start : Option Int) (output : List (StoredRow F)) (seg : Segment) :
    Except String (List (StoredRow F)) := do
  ensure (seg.decodedBytes ≤ config.hotMaxBytes)
    "segment decoded working set exceeds hot memory budget"
  let rows ← readRawSegment adm.segment files seg
  pushRows adm config.queryMaxOutputBytes output (rows.filter fun r => q.Matches start r)

def scanTable (config : Config F) (adm : Admission) (files : Files F) (hot : List (StoredRow F))
    (t : Table F) (q : Request) : Except String (List (StoredRow F)) := do
  let start := q.start t.cutoffUs
  let output ← pushRows adm config.queryMaxOutputBytes [] (hot.filter fun r => q.Matches start r)
  let segments := t.segments.filter fun seg => q.Keeps start t.config.shards seg
  let output ← segments.foldlM (scanSegment config adm files q start) output
  .ok (sortRows output)

end Varve.Store
