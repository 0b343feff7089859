import Varve.Lib.Map

/-!
# Rows, table configuration and limits

The data types and checks of `model.rs`.
-/

namespace Varve.Engine

open Result (ensure)
open Text (len)

def i64Min : Int := -2 ^ 63

def i64Max : Int := 2 ^ 63 - 1

def u64Max : Nat := 2 ^ 64 - 1

def u32Max : Nat := 2 ^ 32 - 1

def clamp (i : Int) : Int := max i64Min (min i i64Max)

def saturatingAdd (a b : Int) : Int := clamp (a + b)

def saturatingSub (a b : Int) : Int := clamp (a - b)

/-- What the engine asks of `f64`; `text` is the spelling of `serde_json`. -/
class F64 (F : Type) where
  isFinite : F → Bool
  add : F → F → F
  min : F → F → F
  max : F → F → F
  le : F → F → Bool
  text : F → Text

def formatVersion : Nat := 1

def idempotencyMaxFutureSkewUs : Int := 300000000

def isAsciiLowercase (c : Char) : Bool := 'a' ≤ c && c ≤ 'z'

def nul : Char := Char.ofNat 0

def validateName (name : Text) : Except String Unit := do
  ensure (name ≠ [] ∧ len name ≤ 63 ∧ name.head?.any isAsciiLowercase)
    "table name must begin with a-z and be 1..63 bytes"
  ensure (name.all (fun c => isAsciiLowercase c || c.isDigit || c == '_') ∧
      ¬['_', '_'] <:+: name)
    "table names allow a-z, 0-9 and single underscores"

def validateRequestId (id : Text) : Except String Unit :=
  ensure (id ≠ [] ∧ len id ≤ 256 ∧ nul ∉ id) "request_id must be 1..256 non-NUL bytes"

def validateDimensions (tenant series : Text) (tags : Map Text) : Except String Unit := do
  ensure (tenant ≠ [] ∧ len tenant ≤ 256) "tenant must be 1..256 bytes"
  ensure (series ≠ [] ∧ len series ≤ 1024) "series must be 1..1024 bytes"
  ensure (nul ∉ tenant ∧ nul ∉ series) "NUL is not permitted"
  ensure (tags.size ≤ 32) "at most 32 tags"
  tags.toList.forM fun (key, value) => do
    ensure (key ≠ [] ∧ len key ≤ 128 ∧ len value ≤ 1024) "invalid tag size"
    ensure (nul ∉ key ∧ nul ∉ value) "NUL is not permitted in tags"

def windowStart (timestampUs widthUs : Int) : Except String Int := do
  ensure (0 < widthUs) "window must be positive"
  ensure (i64Min ≤ timestampUs / widthUs * widthUs) "timestamp window underflow"
  .ok (timestampUs / widthUs * widthUs)

def checkedCutoff (nowUs ageUs : Int) : Int := saturatingSub nowUs ageUs

/-- Lengths go first, so that no two pairs of names are hashed alike by shifting bytes. -/
def shardFor (tenant series : Text) (shards : Nat) : Nat :=
  let bytes := Bytes.le64 (len tenant) ++ Text.utf8 tenant ++ Bytes.le64 (len series) ++
    Text.utf8 series
  bytes.foldl (fun hash byte => Nat.xor hash byte.toNat * 0x100000001b3 % 2 ^ 64)
    0xcbf29ce484222325 % max shards 1

structure Row (F : Type) where
  timestampUs : Int
  tenant : Text
  series : Text
  value : F
  tags : Map Text
deriving DecidableEq

structure StoredRow (F : Type) where
  row : Row F
  sequence : Nat
  ordinal : Nat
deriving DecidableEq

namespace Row

variable {F : Type}

def estimatedBytes (row : Row F) : Nat :=
  128 + len row.tenant + len row.series + row.tags.total fun k v => len k + len v + 64

variable [F64 F]

def validate (row : Row F) : Except String Unit := do
  ensure (F64.isFinite row.value) "value must be finite"
  validateDimensions row.tenant row.series row.tags

def json (row : Row F) : Text :=
  Json.object [("timestamp_us".toList, Json.int row.timestampUs),
    ("tenant".toList, Json.string row.tenant), ("series".toList, Json.string row.series),
    ("value".toList, F64.text row.value), ("tags".toList, row.tags.json Json.string)]

end Row

structure LifecyclePolicy where
  lateAfterUs : Option Int
  retentionUs : Option Int
  archiveAfterUs : Option Int
  rollupRetentionUs : Option Int
  idempotencyWindowUs : Option Int
deriving DecidableEq

structure TableConfig where
  shards : Nat
  windowUs : Int
  lateAfterUs : Option Int
  retentionUs : Option Int
  archiveAfterUs : Option Int
  rollupWidthsUs : List Int
  rollupRetentionUs : Option Int
  idempotencyWindowUs : Option Int
deriving DecidableEq

def validateDurations (durations : List (Option Int)) : Except String Unit :=
  ensure (∀ d ∈ durations.flatMap Option.toList, 0 < d) "policy durations must be positive"

def LifecyclePolicy.validate (p : LifecyclePolicy) : Except String Unit :=
  validateDurations [p.lateAfterUs, p.retentionUs, p.archiveAfterUs, p.rollupRetentionUs,
    p.idempotencyWindowUs]

namespace TableConfig

def validate (c : TableConfig) : Except String Unit := do
  ensure (1 ≤ c.shards ∧ c.shards ≤ 1024) "shards must be 1..1024"
  ensure (0 < c.windowUs) "window_us must be positive"
  validateDurations [c.lateAfterUs, c.retentionUs, c.archiveAfterUs, c.rollupRetentionUs,
    c.idempotencyWindowUs]
  ensure (c.rollupWidthsUs.length ≤ 16) "at most 16 rollup widths"
  ensure c.rollupWidthsUs.Nodup "duplicate rollup widths"
  ensure (∀ w ∈ c.rollupWidthsUs, 0 < w) "rollup widths must be positive"

def json (c : TableConfig) : Text :=
  Json.object [("shards".toList, Json.nat c.shards), ("window_us".toList, Json.int c.windowUs),
    ("late_after_us".toList, Json.option Json.int c.lateAfterUs),
    ("retention_us".toList, Json.option Json.int c.retentionUs),
    ("archive_after_us".toList, Json.option Json.int c.archiveAfterUs),
    ("rollup_widths_us".toList, Json.array (c.rollupWidthsUs.map Json.int)),
    ("rollup_retention_us".toList, Json.option Json.int c.rollupRetentionUs),
    ("idempotency_window_us".toList, Json.option Json.int c.idempotencyWindowUs)]

end TableConfig

structure ContinuousAggregate where
  name : Text
  source : Text
  widthUs : Int
  createdSequence : Nat
deriving DecidableEq

def ContinuousAggregate.json (a : ContinuousAggregate) : Text :=
  Json.object [("name".toList, Json.string a.name), ("source".toList, Json.string a.source),
    ("width_us".toList, Json.int a.widthUs),
    ("created_sequence".toList, Json.nat a.createdSequence)]

inductive JobKind where
  | checkpoint
  | compact
  | ship
  | maintain
  | vacuumRemote
deriving DecidableEq

def JobKind.json : JobKind → Text
  | .checkpoint => Json.string "checkpoint".toList
  | .compact => Json.string "compact".toList
  | .ship => Json.string "ship".toList
  | .maintain => Json.string "maintain".toList
  | .vacuumRemote => Json.string "vacuum_remote".toList

structure JobRun where
  runId : Nat
  scheduledUs : Int
  startedUs : Int
  finishedUs : Option Int
  attempt : Nat
  success : Option Bool
  error : Option Text
deriving DecidableEq

def JobRun.json (r : JobRun) : Text :=
  Json.object [("run_id".toList, Json.nat r.runId), ("scheduled_us".toList, Json.int r.scheduledUs),
    ("started_us".toList, Json.int r.startedUs),
    ("finished_us".toList, Json.option Json.int r.finishedUs),
    ("attempt".toList, Json.nat r.attempt), ("success".toList, Json.option Json.bool r.success),
    ("error".toList, Json.option Json.string r.error)]

structure JobDefinition where
  name : Text
  kind : JobKind
  intervalUs : Int
  paused : Bool
  nextRunUs : Option Int
  running : Bool
  attempts : Nat
  createdSequence : Nat
  updatedSequence : Nat
  latestRun : Option JobRun
deriving DecidableEq

def JobDefinition.json (j : JobDefinition) : Text :=
  Json.object [("name".toList, Json.string j.name), ("kind".toList, j.kind.json),
    ("interval_us".toList, Json.int j.intervalUs), ("paused".toList, Json.bool j.paused),
    ("next_run_us".toList, Json.option Json.int j.nextRunUs),
    ("running".toList, Json.bool j.running), ("attempts".toList, Json.nat j.attempts),
    ("created_sequence".toList, Json.nat j.createdSequence),
    ("updated_sequence".toList, Json.nat j.updatedSequence),
    ("latest_run".toList, Json.option JobRun.json j.latestRun)]

structure JobAlter where
  intervalUs : Option Int
  paused : Option Bool
deriving DecidableEq

structure Config where
  hotMaxBytes : Nat
  metadataMaxBytes : Nat
  derivedPages : Bool
  derivedMaxBytes : Nat
  derivedPageBytes : Nat
  hotMaxRows : Nat
  checkpointFrozenPrefix : Bool
  walMaxBytes : Nat
  maxBatchRows : Nat
  maxBatchBytes : Nat
  maxIdempotencyKeys : Nat
  maxRollupGroups : Nat
  maxTables : Nat
  segmentRows : Nat
  compactMinSegments : Nat
  maintenanceIntervalMs : Nat
deriving DecidableEq

def Config.validate (c : Config) : Except String Unit := do
  ensure (0 < c.hotMaxBytes ∧ 0 < c.hotMaxRows ∧ 0 < c.maxBatchRows ∧ c.maxBatchRows ≤ u32Max)
    "invalid row/memory limits"
  ensure (1024 ≤ c.metadataMaxBytes ∧ c.metadataMaxBytes ≤ 64 * 1024 * 1024)
    "metadata_max_bytes must be 1KiB..64MiB"
  ensure (4096 ≤ c.derivedMaxBytes ∧ c.derivedMaxBytes ≤ 512 * 1024 * 1024 ∧
      4096 ≤ c.derivedPageBytes ∧ c.derivedPageBytes ≤ 1024 * 1024 ∧
      c.derivedPageBytes ≤ c.derivedMaxBytes)
    "derived limits require 4KiB..512MiB budget and 4KiB..1MiB pages within that budget"
  ensure (0 < c.maxBatchBytes ∧ c.maxBatchBytes ≤ 64 * 1024 * 1024)
    "max_batch_bytes must be 1..64MiB"
  ensure (0 < c.walMaxBytes) "invalid WAL/disk budgets"
  ensure (0 < c.segmentRows ∧ 2 ≤ c.compactMinSegments) "invalid segment/compaction limits"
  ensure (0 < c.maxIdempotencyKeys ∧ 0 < c.maxRollupGroups ∧ 0 < c.maxTables)
    "metadata limits must be positive"
  ensure (0 < c.maintenanceIntervalMs) "scheduler intervals must be positive"

-- Rollups

structure RollupRow (F : Type) where
  widthUs : Int
  bucketUs : Int
  tenant : Text
  series : Text
  tags : Map Text
  count : Nat
  sum : F
  min : F
  max : F
  first : F
  last : F
  firstTimestampUs : Int
  lastTimestampUs : Int
  firstSequence : Nat
  firstOrdinal : Nat
  lastSequence : Nat
  lastOrdinal : Nat
deriving DecidableEq

/-- The order of `(timestamp, sequence, ordinal)` triples. -/
def Earlier (a b : Int × Nat × Nat) : Prop :=
  a.1 < b.1 ∨ a.1 = b.1 ∧ (a.2.1 < b.2.1 ∨ a.2.1 = b.2.1 ∧ a.2.2 < b.2.2)

instance (a b : Int × Nat × Nat) : Decidable (Earlier a b) :=
  inferInstanceAs (Decidable (_ ∨ _ ∧ (_ ∨ _ ∧ _)))

namespace RollupRow

variable {F : Type} [F64 F]

def firstKey (r : RollupRow F) : Int × Nat × Nat :=
  (r.firstTimestampUs, r.firstSequence, r.firstOrdinal)

def lastKey (r : RollupRow F) : Int × Nat × Nat :=
  (r.lastTimestampUs, r.lastSequence, r.lastOrdinal)

def single (widthUs bucketUs : Int) (row : Row F) (sequence ordinal : Nat) : RollupRow F where
  widthUs := widthUs
  bucketUs := bucketUs
  tenant := row.tenant
  series := row.series
  tags := row.tags
  count := 1
  sum := row.value
  min := row.value
  max := row.value
  first := row.value
  last := row.value
  firstTimestampUs := row.timestampUs
  lastTimestampUs := row.timestampUs
  firstSequence := sequence
  firstOrdinal := ordinal
  lastSequence := sequence
  lastOrdinal := ordinal

def fromRow (widthUs : Int) (stored : StoredRow F) : Except String (RollupRow F) := do
  let bucket ← windowStart stored.row.timestampUs widthUs
  .ok (single widthUs bucket stored.row stored.sequence stored.ordinal)

def addBorrowedRollup (agg : RollupRow F) (row : Row F) (sequence ordinal : Nat) :
    Except String (RollupRow F) := do
  ensure (F64.isFinite (F64.add agg.sum row.value)) "rollup sum overflow"
  ensure (agg.count + 1 ≤ u64Max) "rollup count overflow"
  let key := (row.timestampUs, sequence, ordinal)
  let agg' := { agg with
    count := agg.count + 1
    sum := F64.add agg.sum row.value
    min := F64.min agg.min row.value
    max := F64.max agg.max row.value }
  let agg'' := if Earlier key agg.firstKey then { agg' with
      first := row.value
      firstTimestampUs := row.timestampUs
      firstSequence := sequence
      firstOrdinal := ordinal } else agg'
  .ok (if Earlier agg.lastKey key then { agg'' with
      last := row.value
      lastTimestampUs := row.timestampUs
      lastSequence := sequence
      lastOrdinal := ordinal } else agg'')

def add (agg : RollupRow F) (stored : StoredRow F) : Except String (RollupRow F) :=
  agg.addBorrowedRollup stored.row stored.sequence stored.ordinal

def json (r : RollupRow F) : Text :=
  Json.object [("width_us".toList, Json.int r.widthUs), ("bucket_us".toList, Json.int r.bucketUs),
    ("tenant".toList, Json.string r.tenant), ("series".toList, Json.string r.series),
    ("tags".toList, r.tags.json Json.string), ("count".toList, Json.nat r.count),
    ("sum".toList, F64.text r.sum), ("min".toList, F64.text r.min), ("max".toList, F64.text r.max),
    ("first".toList, F64.text r.first), ("last".toList, F64.text r.last),
    ("first_timestamp_us".toList, Json.int r.firstTimestampUs),
    ("last_timestamp_us".toList, Json.int r.lastTimestampUs),
    ("first_sequence".toList, Json.nat r.firstSequence),
    ("first_ordinal".toList, Json.nat r.firstOrdinal),
    ("last_sequence".toList, Json.nat r.lastSequence),
    ("last_ordinal".toList, Json.nat r.lastOrdinal)]

end RollupRow

/-- The key of a bucket: the JSON array of its width, start, tenant, series and tags. -/
def rollupKey (widthUs bucketUs : Int) (tenant series : Text) (tags : Map Text) : Text :=
  Json.array [Json.int widthUs, Json.int bucketUs, Json.string tenant, Json.string series,
    tags.json Json.string]

end Varve.Engine
