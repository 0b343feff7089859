import Varve.Engine.Model
import Varve.Wal.Frame

/-!
# The catalog

Tables, receipts, segments and control metadata of `engine.rs` and `control.rs`: the manifest, its
text and its checks.
-/

namespace Varve.Engine

open Result (ensure)
open Text (len isAsciiHexdigit)
open Journal (Digest)

/-- The text before the first `c`, and the text after it if there is one. -/
def splitOnce (c : Char) (t : Text) : Text × Option Text :=
  (t.takeWhile (· ≠ c), (t.dropWhile (· ≠ c)).tail?)

def digitsValue (t : Text) : Nat := t.foldl (fun n c => n * 10 + (c.toNat - '0'.toNat)) 0

/-- `str::parse::<i64>`: an optional sign and at least one digit. -/
def parseI64 (t : Text) : Option Int :=
  let (negative, digits) := match t with
    | '-' :: rest => (true, rest)
    | '+' :: rest => (false, rest)
    | _ => (false, t)
  let value : Int := if negative then -(digitsValue digits : Int) else digitsValue digits
  if digits ≠ [] ∧ digits.all Char.isDigit ∧ i64Min ≤ value ∧ value ≤ i64Max then some value
  else none

/-- `anyhow::Context` on an option. -/
def context (o : Option α) (e : String) : Except String α := o.elim (.error e) .ok

theorem context_ok {o : Option α} : context o e = .ok a ↔ o = some a := by
  cases o <;> simp [context]

def parseTimedRequestId (requestId : Text) : Except String Int := do
  let (tag, rest) := splitOnce ':' requestId
  ensure (tag = "v1".toList) "timed request_id must use v1:<issued_us>:<nonce>"
  let rest ← context rest "timed request_id is missing issued_us"
  let (digits, nonce) := splitOnce ':' rest
  let issued ← context (parseI64 digits) "timed request_id issued_us is not an i64"
  ensure (nonce.any (· ≠ [])) "timed request_id nonce must not be empty"
  .ok issued

-- Receipts, segments and tables

structure ReceiptEntry where
  sequence : Nat
  rows : Nat
  digest : Text
  issuedUs : Option Int
  groupFingerprint : Option Text
deriving DecidableEq

def ReceiptEntry.json (r : ReceiptEntry) : Text :=
  Json.object ([("sequence".toList, Json.nat r.sequence), ("rows".toList, Json.nat r.rows),
      ("digest".toList, Json.string r.digest),
      ("issued_us".toList, Json.option Json.int r.issuedUs)] ++
    r.groupFingerprint.toList.map fun f => ("group_fingerprint".toList, Json.string f))

structure Segment where
  id : Text
  shard : Nat
  windowUs : Int
  rows : Nat
  minTimestampUs : Int
  maxTimestampUs : Int
  bytes : Nat
  decodedBytes : Nat
deriving DecidableEq

structure Table (F : Type) where
  config : TableConfig
  creationConfig : Option TableConfig
  createdSequence : Nat
  segments : List Segment
  receipts : Map ReceiptEntry
  rollups : Map (RollupRow F)
  cutoffUs : Option Int
  rollupCutoffUs : Option Int
  idempotencyFloorUs : Option Int
deriving DecidableEq

def emptyTable (config : TableConfig) (sequence : Nat) : Table F where
  config := config
  creationConfig := some config
  createdSequence := sequence
  segments := []
  receipts := ∅
  rollups := ∅
  cutoffUs := none
  rollupCutoffUs := none
  idempotencyFloorUs := none

structure ControlStamp where
  sequence : Nat
  digest : Text
deriving DecidableEq

structure Manifest (F : Type) where
  formatVersion : Nat
  databaseId : Text
  checkpointSequence : Nat
  segmentedJournal : Bool
  tables : Map (Table F)
  continuousAggregates : Map ContinuousAggregate
  jobs : Map JobDefinition
  controlHistory : List ControlStamp
deriving DecidableEq

def isLowerHex (c : Char) : Bool := c.isDigit || ('a' ≤ c && c ≤ 'f')

def validDigest (digest : Text) : Bool := len digest == 64 && digest.all isLowerHex

section
variable {F : Type} [F64 F]

def canonicalKey (row : RollupRow F) : Text :=
  rollupKey row.widthUs row.bucketUs row.tenant row.series row.tags

def validateRollup (key : Text) (row : RollupRow F) : Except String Unit := do
  validateDimensions row.tenant row.series row.tags
  ensure (key = canonicalKey row) "noncanonical derived rollup key"
  ensure (0 < row.widthUs) "invalid derived rollup bucket"
  let bucket ← windowStart row.bucketUs row.widthUs
  ensure (bucket = row.bucketUs) "invalid derived rollup bucket"
  ensure (0 < row.count ∧ [row.sum, row.min, row.max, row.first, row.last].all F64.isFinite)
    "invalid derived rollup values"
  ensure (F64.le row.min row.max ∧ F64.le row.min row.first ∧ F64.le row.first row.max ∧
      F64.le row.min row.last ∧ F64.le row.last row.max)
    "inconsistent derived rollup extrema"
  let first ← windowStart row.firstTimestampUs row.widthUs
  let last ← windowStart row.lastTimestampUs row.widthUs
  ensure (first = row.bucketUs ∧ last = row.bucketUs ∧ ¬Earlier row.lastKey row.firstKey ∧
      0 < row.firstSequence ∧ 0 < row.lastSequence)
    "inconsistent derived rollup ties"

def rollupResidentBytes (key : Text) (row : RollupRow F) : Nat :=
  512 + len key + len row.tenant + len row.series + row.tags.total fun k v => 256 + len k + len v

/-- `RollupIndex::entry_bytes`: every level of the index charged as unshared. -/
def indexEntryBytes (key : Text) (row : RollupRow F) : Nat :=
  1024 + len key + len row.tenant + len row.series

end

def validateReceipt (key : Text) (receipt : ReceiptEntry) : Except String Unit := do
  validateRequestId key
  ensure (0 < receipt.sequence ∧ 0 < receipt.rows ∧ validDigest receipt.digest)
    "invalid derived receipt"
  ensure (receipt.groupFingerprint.all validDigest) "invalid derived group receipt fingerprint"

def receiptResidentBytes (key : Text) (receipt : ReceiptEntry) : Nat :=
  512 + len key + len receipt.digest + receipt.groupFingerprint.elim 0 len

-- Checks of a manifest

def controlHistoryLimit : Nat := 4096

def maxJobAttempts : Nat := 5

def builtinMaintenanceJob : Text := "varve_maintenance".toList

def validateInterval (intervalUs : Int) : Except String Unit :=
  ensure (0 < intervalUs) "job interval_us must be positive"

def validateJob (job : JobDefinition) (checkpointSequence : Nat) : Except String Unit := do
  validateName job.name
  validateInterval job.intervalUs
  ensure ((job.name = builtinMaintenanceJob ∧ job.createdSequence = 0 ∨ 0 < job.createdSequence) ∧
      job.createdSequence ≤ job.updatedSequence ∧ job.updatedSequence ≤ checkpointSequence)
    "invalid job definition sequence"
  ensure (job.attempts ≤ maxJobAttempts) "invalid job attempt count"
  match job.latestRun with
  | some run => do
    ensure (0 < run.runId ∧ 0 < run.attempt ∧ run.attempt ≤ maxJobAttempts ∧
        run.error.all fun error => len error ≤ 2048)
      "invalid job run"
    ensure (job.running = run.finishedUs.isNone) "invalid job running state"
  | none => ensure (job.running = false) "job is running without a run record"

/-- A lowercase hexadecimal digest as `control.rs` and the segment check spell the condition. -/
def hexDigest (digest : Text) : Bool :=
  len digest == 64 && digest.all fun c => isAsciiHexdigit c && !c.isUpper

def validateHistory (checkpointSequence : Nat) : Nat → List ControlStamp → Except String Unit
  | _, [] => .ok ()
  | prior, stamp :: stamps => do
    ensure (prior < stamp.sequence ∧ stamp.sequence ≤ checkpointSequence ∧ hexDigest stamp.digest)
      "invalid control history"
    validateHistory checkpointSequence stamp.sequence stamps

/-- The forms `Uuid::parse_str` reads: 32 digits, with hyphens, in braces, or as a URN. -/
def isUuid (t : Text) : Bool :=
  let hyphenated (t : Text) : Bool := len t == 36 && t.zipIdx.all fun (c, i) =>
    if i == 8 || i == 13 || i == 18 || i == 23 then c == '-' else isAsciiHexdigit c
  (len t == 32 && t.all isAsciiHexdigit) || hyphenated t ||
    (t.head? == some (Char.ofNat 123) && t.getLast? == some (Char.ofNat 125) &&
      hyphenated (t.tail.dropLast)) ||
    (t.take 9 == "urn:uuid:".toList && hyphenated (t.drop 9))

section
variable {F : Type}

def validateControlManifest (c : Manifest F) : Except String Unit := do
  ensure (c.controlHistory.length ≤ controlHistoryLimit) "control history limit exceeded"
  validateHistory c.checkpointSequence 0 c.controlHistory
  c.continuousAggregates.toList.forM fun (name, aggregate) => do
    validateName name
    ensure (aggregate.name = name) "aggregate name/key mismatch"
    ensure (0 < aggregate.widthUs) "aggregate width must be positive"
    ensure (0 < aggregate.createdSequence ∧ aggregate.createdSequence ≤ c.checkpointSequence)
      "invalid aggregate creation sequence"
    let table ← context c.tables[aggregate.source]? "aggregate source table missing"
    ensure (aggregate.widthUs ∈ table.config.rollupWidthsUs)
      "aggregate width is not active on source table"
  c.jobs.toList.forM fun (_, job) => validateJob job c.checkpointSequence

def validateSegment (config : TableConfig) (seg : Segment) : Except String Unit := do
  ensure (0 < seg.rows ∧ 0 < seg.bytes ∧ seg.bytes ≤ Wal.maxFrameBytes ∧ 0 < seg.decodedBytes ∧
      seg.shard < config.shards ∧ seg.minTimestampUs ≤ seg.maxTimestampUs)
    "invalid segment metadata"
  let low ← windowStart seg.minTimestampUs config.windowUs
  let high ← windowStart seg.maxTimestampUs config.windowUs
  ensure (low = seg.windowUs ∧ high = seg.windowUs) "segment crosses time window"

/-- The segments in turn, each under an identity not seen before it. -/
def validateSegments (config : TableConfig) : List Text → List Segment → Except String Unit
  | _, [] => .ok ()
  | identities, seg :: segments => do
    ensure (hexDigest seg.id) "invalid segment digest"
    ensure (seg.id ∉ identities) "duplicate manifest segment"
    validateSegment config seg
    validateSegments config (seg.id :: identities) segments

def validateTableReceipt (checkpointSequence : Nat) (t : Table F) (id : Text)
    (receipt : ReceiptEntry) : Except String Unit := do
  validateRequestId id
  ensure (receipt.groupFingerprint.all validDigest) "invalid group receipt fingerprint"
  ensure (receipt.sequence ≤ checkpointSequence ∧ 0 < receipt.sequence ∧ 0 < receipt.rows)
    "invalid receipt sequence"
  match receipt.issuedUs with
  | some issued => do
    ensure t.config.idempotencyWindowUs.isSome "invalid timed idempotency receipt"
    let parsed ← parseTimedRequestId id
    ensure (parsed = issued ∧ t.idempotencyFloorUs.all fun floor => floor ≤ issued)
      "invalid timed idempotency receipt"
  | none =>
    ensure t.idempotencyFloorUs.isNone "legacy receipt retained below a timed idempotency floor"

variable [F64 F]

def validateTable (checkpointSequence : Nat) (name : Text) (t : Table F) : Except String Unit := do
  validateName name
  t.config.validate
  match t.creationConfig with
  | some created => do
    created.validate
    ensure (created.shards = t.config.shards ∧ created.windowUs = t.config.windowUs)
      "immutable table partitioning changed"
  | none => .ok ()
  ensure (0 < t.createdSequence ∧ t.createdSequence ≤ checkpointSequence)
    "invalid table creation sequence"
  t.rollups.toList.forM fun (key, row) => validateRollup key row
  validateSegments t.config [] t.segments
  ensure (t.idempotencyFloorUs.isNone ∨ t.config.idempotencyWindowUs.isSome)
    "idempotency floor persisted for a table without a window"
  t.receipts.toList.forM fun (id, receipt) => validateTableReceipt checkpointSequence t id receipt

def validateManifest (c : Manifest F) : Except String Unit := do
  ensure (c.formatVersion = formatVersion) "unsupported manifest version"
  ensure (isUuid c.databaseId) "invalid database id"
  validateControlManifest c
  c.tables.toList.forM fun (name, t) => validateTable c.checkpointSequence name t

section
variable (H : Digest)

def sealText (magic : Bytes) (json : Text) : Bytes :=
  let content := magic ++ Text.utf8 json
  content ++ H.hash content

end

end

end Varve.Engine
