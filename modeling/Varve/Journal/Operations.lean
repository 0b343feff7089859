import Mathlib.Data.List.Sort
import Varve.Lib.Disk
import Varve.Journal.Format

/-!
# The journal's operations

`Journal` as a value.
-/

namespace Varve

open Result (ensure)
open Bytes (word)

namespace Journal

abbrev Io := Disk.Op Nat UInt8

abbrev Listing := List (Nat × Bytes)

structure Active where
  len : Nat
  hash : Bytes
deriving DecidableEq, Repr

end Journal

structure Journal where
  config : Journal.JournalConfig
  segments : List Journal.Segment
  active : Option Journal.Active
  nextSequence : Nat
  nextSegmentId : Nat
  checkpointSequence : Nat
  diskBytes : Nat
  durableSequence : Nat
  tailBytesDiscarded : Nat
deriving DecidableEq, Repr

namespace Journal

structure AppendPlan where
  size : Nat
  next : Nat
  rotate : Bool
  growth : Nat
deriving DecidableEq, Repr

structure DurableGroup where
  first : Nat
  last : Nat
deriving DecidableEq, Repr

/-- The upload identity of a sealed segment; `id` stands for its file name. -/
structure SealedSegment where
  id : Nat
  firstSequence : Nat
  lastSequence : Nat
  bytes : Nat
deriving DecidableEq, Repr

-- Append

/-- The last sequence of the last segment; zero stands for no segment. -/
def lastSequence (j : Journal) : Nat := (j.segments.getLast?.map Segment.last).getD 0

def lastId (j : Journal) : Nat := (j.segments.getLast?.map Segment.id).getD 0

def mustRotate (j : Journal) (size : Nat) : Bool :=
  match j.active with
  | none => true
  | some a => decide (a.len + size + reservedSealBytes > j.config.segmentBytes) ||
      j.lastSequence + 1 != j.nextSequence

def appendPlan (j : Journal) (records : List Bytes) (checkCapacity : Bool) :
    Except String AppendPlan := do
  ensure (records ≠ [] ∧ records.length ≤ j.config.maxRecordsPerGroup)
    "group record count admission exceeded"
  ensure (∀ record ∈ records, record.length ≤ j.config.maxRecordBytes)
    "record byte admission exceeded"
  let size := frameSize records
  ensure (size ≤ j.config.maxFrameBytes) "frame byte admission exceeded"
  let next := j.nextSequence + records.length
  ensure (next < 2 ^ 64) "record sequence exhausted"
  let rotate := j.mustRotate size
  ensure (rotate = true → j.nextSegmentId + 1 < 2 ^ 64) "segment ID exhausted"
  let reserve := if rotate then
      headerBytes + reservedSealBytes + (if j.active.isSome then reservedSealBytes else 0)
    else reservedSealBytes
  ensure (checkCapacity = true → rotate = true → j.segments.length < j.config.maxSegments)
    "segment count admission exceeded"
  ensure (checkCapacity = true → j.diskBytes + size + reserve ≤ j.config.maxTotalBytes)
    "disk byte admission exceeded"
  .ok ⟨size, next, rotate, size + reserve - reservedSealBytes⟩

def requiredAppendBytes (j : Journal) (records : List Bytes) : Except String Nat := do
  .ok (← j.appendPlan records false).growth

def setLast (segments : List Segment) (f : Segment → Segment) : List Segment :=
  match segments.getLast? with
  | none => []
  | some last => segments.dropLast ++ [f last]

@[simp] theorem setLast_concat (segments : List Segment) (s : Segment) (f : Segment → Segment) :
    setLast (segments ++ [s]) f = segments ++ [f s] := by
  simp [setLast]

section
variable (H : Digest)

def sealActive (j : Journal) : List Io × Journal :=
  match j.active with
  | none => ([], j)
  | some a =>
    let bytes := sealOf H a.hash j.lastId (j.lastSequence + 1) (a.len + reservedSealBytes)
    ([.append j.lastId bytes, .sync j.lastId],
      { j with
        active := none
        segments := setLast j.segments fun s => { s with len := s.len + reservedSealBytes }
        diskBytes := j.diskBytes + reservedSealBytes })

def rotate (j : Journal) : List Io × Journal :=
  let (ops, j) := j.sealActive H
  let id := j.nextSegmentId
  let header := segmentHeader H id j.nextSequence
  (ops ++ [.create id, .append id header, .sync id, .syncDir],
    { j with
      active := some ⟨headerBytes, header⟩
      segments := j.segments ++ [⟨id, headerBytes, j.nextSequence, j.nextSequence - 1⟩]
      nextSegmentId := id + 1
      diskBytes := j.diskBytes + headerBytes })

def writeFrame (j : Journal) (frame : Bytes) (next : Nat) : List Io × Journal :=
  ([.append j.lastId frame, .sync j.lastId],
    { j with
      active := j.active.map fun a => ⟨a.len + frame.length, a.hash ++ frame⟩
      segments := setLast j.segments fun s =>
        { s with len := s.len + frame.length, last := next - 1 }
      diskBytes := j.diskBytes + frame.length
      nextSequence := next
      durableSequence := next - 1 })

def appendGroup (j : Journal) (records : List Bytes) :
    Except String (List Io × Journal × DurableGroup) := do
  let plan ← j.appendPlan records true
  let frame := encode H records plan.size j.nextSequence (plan.next - 1)
  let (ops, j') := if plan.rotate then j.rotate H else ([], j)
  let (ops', j'') := j'.writeFrame frame plan.next
  .ok (ops ++ ops', j'', ⟨j.nextSequence, plan.next - 1⟩)

def descriptors (active : Bool) : List Segment → List SealedSegment
  | [] => []
  | s :: rest =>
    let bytes := s.len + if active && rest.isEmpty then reservedSealBytes else 0
    if s.last < s.first then descriptors active rest
    else ⟨s.id, s.first, s.last, bytes⟩ :: descriptors active rest

def sealSnapshot (j : Journal) : List Io × Journal × List SealedSegment :=
  let (ops, j') := j.sealActive H
  (ops, j', descriptors j.active.isSome j.segments)

def reclaimThrough (j : Journal) (checkpointSequence : Nat) :
    Except String (List Io × Journal) := do
  ensure (j.checkpointSequence ≤ checkpointSequence) "checkpoint authority regressed"
  ensure (checkpointSequence ≤ j.durableSequence) "checkpoint exceeds durable frontier"
  let covered := (j.segments.takeWhile fun s => decide (s.last ≤ checkpointSequence)).length
  if covered = 0 ∨ checkpointSequence = 0 ∧ covered < j.segments.length then
    .ok ([], { j with checkpointSequence })
  else
    let (ops, j) := if covered = j.segments.length then j.sealActive H else ([], j)
    let retired := j.segments.take covered
    let unlinks := retired.reverse.map fun s => Disk.Op.unlink s.id
    .ok (ops ++ unlinks ++ [.syncDir],
      { j with
        segments := j.segments.drop covered
        nextSegmentId := if checkpointSequence = 0 then 1 else j.nextSegmentId
        diskBytes := j.diskBytes - (retired.map Segment.len).sum
        checkpointSequence })

end

-- Open and scan

/-- The admission of directory entries before any frame is read. -/
def admitListing (config : JournalConfig) : Nat → Nat → Listing → Except String Nat
  | _, diskBytes, [] => .ok diskBytes
  | count, diskBytes, (_, content) :: rest => do
    ensure (count < config.maxSegments) "segment count admission exceeded"
    ensure (content.length ≤ config.segmentBytes) "segment byte admission exceeded"
    ensure (diskBytes + content.length ≤ config.maxTotalBytes) "disk admission exceeded"
    admitListing config (count + 1) (diskBytes + content.length) rest

structure Recovered where
  segments : List Segment
  last : Option ScanEnd
  previousId : Nat
deriving DecidableEq, Repr

section
variable (H : Digest) (config : JournalConfig)

/-- The first sequence of a segment, from the start of its file. -/
def locateFirst (id floorNext contiguous : Nat) (content : Bytes) : Nat :=
  let n := min content.length 32
  if n = 32 then word (content.take 32) 24
  else if content.take n = (segmentHeader H id contiguous).take n then contiguous
  else floorNext

def recoverSegments (checkpoint floorNext : Nat) :
    Bool → Nat → Nat → Option ScanEnd → Listing → Except String Recovered
  | _, previousId, _, last, [] => .ok ⟨[], last, previousId⟩
  | isFirst, previousId, previousNext, _, (id, content) :: rest => do
    let contiguous := if isFirst && id != 1 then floorNext else previousNext
    let first := locateFirst H id floorNext contiguous content
    ensure (0 < first) "zero record sequence"
    ensure (if isFirst then first ≤ floorNext
        else previousNext ≤ first ∧ (first = previousNext ∨ first ≤ floorNext))
      "record sequence gap above checkpoint or overlapping history"
    ensure (id = previousId + 1 ∨
        0 < checkpoint ∧ previousNext ≤ floorNext ∧ first ≤ floorNext)
      "segment ID gap above checkpoint"
    let (_, scanEnd) ← inspect H config ⟨id, content.length, 0, 0⟩ rest.isEmpty content first
    ensure (rest = [] ∨ scanEnd.sealed = true) "unsealed interior segment"
    let recovered ← recoverSegments checkpoint floorNext false id scanEnd.next (some scanEnd) rest
    .ok { recovered with
      segments := ⟨id, content.length, first, scanEnd.next - 1⟩ :: recovered.segments }

/-- The journal found in the directory, before its last segment is repaired. -/
def found (checkpointSequence diskBytes : Nat) (recovered : Recovered) : Journal :=
  let floorNext := checkpointSequence + 1
  let nextSequence := (recovered.last.map fun scanEnd => max scanEnd.next floorNext).getD floorNext
  { config
    segments := recovered.segments
    active := none
    nextSequence
    nextSegmentId := recovered.previousId + 1
    checkpointSequence
    diskBytes
    durableSequence := nextSequence - 1
    tailBytesDiscarded := 0 }

/-- The repair of an unsealed last segment: its I/O and the journal with the
segment active. -/
def repairLast (j : Journal) (segment : Segment) (scanEnd : ScanEnd) :
    Except String (List Io × Journal) := do
  let repairedTotal := j.diskBytes - segment.len + scanEnd.validLen
  ensure (repairedTotal + reservedSealBytes ≤ config.maxTotalBytes)
    "no disk budget for recovered active segment"
  ensure (scanEnd.validLen + reservedSealBytes ≤ config.segmentBytes) "no segment seal reserve"
  let ops : List Io :=
    if scanEnd.repairHeader then [.rewrite segment.id (segmentHeader H segment.id segment.first)]
    else if segment.len ≠ scanEnd.validLen then [.truncate segment.id scanEnd.validLen]
    else []
  let discarded := if scanEnd.repairHeader then 0 else segment.len - scanEnd.validLen
  .ok (ops, { j with
    segments := setLast j.segments fun s => { s with len := scanEnd.validLen }
    diskBytes := repairedTotal
    tailBytesDiscarded := discarded
    active := some ⟨scanEnd.validLen, scanEnd.hash⟩ })

def repair (j : Journal) (last : Option ScanEnd) : Except String (List Io × Journal) :=
  match last, j.segments.getLast? with
  | some scanEnd, some segment =>
    if scanEnd.sealed then .ok ([], j) else repairLast H config j segment scanEnd
  | _, _ => .ok ([], j)

def openWithCheckpoint (checkpointSequence : Nat) (listing : Listing) :
    Except String (List Io × Journal) := do
  config.validate
  ensure (checkpointSequence + 1 < 2 ^ 64) "checkpoint sequence exhausted"
  let diskBytes ← admitListing config 0 0 listing
  let recovered ← recoverSegments H config checkpointSequence (checkpointSequence + 1) true 0 1 none
    (listing.insertionSort fun a b => a.1 ≤ b.1)
  ensure (recovered.previousId + 1 < 2 ^ 64) "segment ID exhausted"
  let (ops, j) ← repair H config (found config checkpointSequence diskBytes recovered)
    recovered.last
  .ok (ops ++ j.segments.map (fun s => .sync s.id) ++ [.syncDir], j)

end

/-- The groups of the remaining segments and the frontier they reach. -/
def scanSegments (H : Digest) (j : Journal) (files : Listing) :
    Nat → List Segment → Except String (List ReplayGroup)
  | next, [] => do
    ensure (next = j.nextSequence) "scan frontier changed"
    .ok []
  | _, segment :: rest => do
    match files.find? (·.1 == segment.id) with
    | none => .error "No such file or directory"
    | some (_, content) =>
      let (groups, scanEnd) ← inspect H j.config segment false content segment.first
      ensure (rest = [] ∨ scanEnd.sealed = true) "unsealed interior segment"
      ensure (scanEnd.next = segment.last + 1) "segment frontier changed"
      let later ← scanSegments H j files (max scanEnd.next (j.checkpointSequence + 1)) rest
      .ok (groups ++ later)

/-- `scan`: the groups visited, in order. -/
def scan (H : Digest) (j : Journal) (files : Listing) : Except String (List ReplayGroup) :=
  scanSegments H j files (j.checkpointSequence + 1) j.segments

section
variable (H : Digest) (config : JournalConfig) (expected : SealedSegment) (content : Bytes)

/-- The groups of a sealed segment that is exactly what its descriptor says. -/
def inspectExpected : Except String (List ReplayGroup) := do
  let segment : Segment :=
    ⟨expected.id, expected.bytes, expected.firstSequence, expected.lastSequence⟩
  let (groups, scanEnd) ← inspect H config segment false content expected.firstSequence
  ensure (scanEnd.sealed = true ∧ scanEnd.repairHeader = false ∧
      scanEnd.validLen = expected.bytes ∧ scanEnd.next = expected.lastSequence + 1)
    "sealed segment descriptor/range mismatch"
  .ok groups

/-- The checks of a descriptor that come before its file is looked at. -/
def checkDescriptor : Except String Unit := do
  config.validate
  ensure (0 < expected.id) "noncanonical segment name"
  ensure (0 < expected.firstSequence ∧ expected.firstSequence ≤ expected.lastSequence)
    "invalid sealed record range"
  ensure (expected.lastSequence + 1 < 2 ^ 64) "sealed range overflow"

def SealedSegment.InBounds : Prop :=
  headerBytes + reservedSealBytes ≤ expected.bytes ∧ expected.bytes ≤ config.segmentBytes ∧
    expected.bytes ≤ config.maxTotalBytes

instance : Decidable (expected.InBounds config) := inferInstanceAs (Decidable (_ ∧ _))

def validateSealedSegment : Except String (List ReplayGroup) := do
  checkDescriptor config expected
  ensure (expected.InBounds config) "sealed segment byte bounds"
  ensure (content.length = expected.bytes) "sealed segment file/size mismatch"
  inspectExpected H config expected content

def validateSealedBytes : Except String (List ReplayGroup) := do
  checkDescriptor config expected
  ensure (expected.bytes = content.length ∧ expected.InBounds config) "sealed buffer byte bounds"
  inspectExpected H config expected content

end

end Journal

end Varve
