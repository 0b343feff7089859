import Varve.Tier.Object
import Varve.Journal.CommitLog

/-!
# The sealed journal as remote transport

`tier_journal.rs`: what a ship captures and uploads of the journal, and how a restore checks,
installs and scans it.
-/

namespace Varve.Tier

open Journal (Digest JournalConfig SealedSegment Listing Directory Io ReplayGroup)
open Result (ensure)
open Text (toHex)

structure JournalRef where
  object : ObjectRef
  id : Nat
  firstSequence : Nat
  lastSequence : Nat
deriving DecidableEq, Repr

def JournalRef.descriptor (r : JournalRef) : SealedSegment :=
  ⟨r.id, r.firstSequence, r.lastSequence, r.object.bytes⟩

/-- The fields of a remote head that its transport is read from. -/
structure RemoteHead where
  sequence : Nat
  wal : List ObjectRef
  journal : List JournalRef
deriving DecidableEq, Repr

/-- The fields of a root that its transport is checked against. -/
structure Manifest where
  checkpointSequence : Nat
  segmentedJournal : Bool
deriving DecidableEq, Repr

def keyStart : Text := "journal/".toList

def keyEnd : Text := ".jrn".toList

def journalKey (digest : Text) : Text := keyStart ++ digest ++ keyEnd

def fileName (id : Nat) : Except String Unit := ensure (0 < id) "unsafe journal file name"

def validateRefsFrom (names : List Nat) (keys : List Text) (previous : Option Nat) :
    List JournalRef → Except String Unit
  | [] => .ok ()
  | r :: rest => do
    r.object.validate keyStart keyEnd
    ensure (r.object.key = journalKey r.object.digest) "journal key/digest mismatch"
    fileName r.id
    ensure (r.id ∉ names ∧ r.object.key ∉ keys) "duplicate remote journal reference"
    ensure (0 < r.firstSequence ∧ r.firstSequence ≤ r.lastSequence) "invalid journal record range"
    ensure (∀ last ∈ previous, last + 1 < 2 ^ 64 ∧ last + 1 = r.firstSequence)
      "noncontiguous remote journal ranges"
    validateRefsFrom (r.id :: names) (r.object.key :: keys) (some r.lastSequence) rest

def validateRefs (head : RemoteHead) : Except String Unit := do
  ensure (head.wal = [] ∨ head.journal = []) "mixed remote WAL/journal transport"
  validateRefsFrom [] [] none head.journal

def validateTransport (head : RemoteHead) (checkpoint : Manifest) : Except String Unit := do
  validateRefs head
  ensure (checkpoint.checkpointSequence ≤ head.sequence) "remote checkpoint is ahead of head"
  if checkpoint.segmentedJournal then
    ensure (head.wal = []) "segmented root has legacy WAL transport"
    if checkpoint.checkpointSequence = head.sequence then
      ensure (head.journal = []) "checkpoint-only head contains journal tail"
    else
      match head.journal.head? with
      | none => .error "incomplete remote journal tail"
      | some first =>
        let next := checkpoint.checkpointSequence + 1
        ensure (next < 2 ^ 64) "journal sequence overflow"
        ensure (first.firstSequence ≤ next ∧ next ≤ first.lastSequence)
          "journal tail is unaligned with checkpoint"
        ensure (head.journal.getLast?.map JournalRef.lastSequence = some head.sequence)
          "incomplete remote journal tail"
  else
    ensure (head.journal = []) "legacy root has journal transport"
    ensure (head.wal.length = head.sequence - checkpoint.checkpointSequence)
      "incomplete remote WAL tail"

/-- The descriptors above the checkpoint, within the WAL budget. -/
def captureTail (walMaxBytes sequence checkpointSequence : Nat) :
    Nat → List SealedSegment → Except String (List SealedSegment)
  | _, [] => .ok []
  | bytes, segment :: rest =>
    if segment.lastSequence ≤ checkpointSequence then
      captureTail walMaxBytes sequence checkpointSequence bytes rest
    else do
      fileName segment.id
      ensure (segment.lastSequence ≤ sequence) "journal snapshot exceeds installed frontier"
      ensure (bytes + segment.bytes < 2 ^ 64) "journal snapshot size overflow"
      ensure (bytes + segment.bytes ≤ walMaxBytes) "journal snapshot exceeds WAL budget"
      let tail ← captureTail walMaxBytes sequence checkpointSequence (bytes + segment.bytes) rest
      .ok (segment :: tail)

section
variable (H : Digest)

/-- Outer errors come before any I/O; once the active segment is sealed the
descriptors may still be refused. -/
def capture (s : CommitLog.State) (sequence used : Nat) :
    Except String (List Io × CommitLog.State × Except String (List SealedSegment)) := do
  ensure (s.fenced = false) "database is fenced"
  ensure (s.journal.durableSequence = sequence) "journal includes an uninstalled tail"
  CommitLog.ensureBudget s.config used 0
  let (ops, journal, segments) := s.journal.sealSnapshot H
  .ok (ops, { s with journal, walBytes := journal.diskBytes },
    captureTail s.config.walMaxBytes sequence s.checkpointSequence 0 segments)

variable (fromSlice : Bytes → Except String (Wal.Record Op))

/-- Every record of the visited groups carries the sequence it is stored under. -/
def checkSequences (message : String) : List (Nat × Bytes) → Except String Unit
  | [] => .ok ()
  | (sequence, bytes) :: rest => do
    let record ← Wal.decode H fromSlice bytes
    ensure (record.sequence = sequence) message
    checkSequences message rest

def readBounded (files : Listing) (id max : Nat) : Except String Bytes :=
  match files.find? (·.1 == id) with
  | none => .error "No such file or directory"
  | some (_, content) => do
    ensure (content.length ≤ max) "file exceeds read budget"
    .ok content

variable (limits : JournalConfig)

/-- The references of a ship, each with the object put under its key. -/
def upload (files : Listing) : List SealedSegment → Except String (List (JournalRef × Bytes))
  | [] => .ok []
  | segment :: rest => do
    fileName segment.id
    ensure (segment.bytes ≤ limits.segmentBytes ∧ segment.bytes ≤ Wal.maxFrameBytes)
      "journal object exceeds size limit"
    let content ← readBounded files segment.id segment.bytes
    ensure (content.length = segment.bytes) "journal snapshot extent changed"
    let groups ← Journal.validateSealedBytes H limits segment content
    checkSequences H fromSlice "journal/WAL sequence mismatch during upload"
      (groups.flatMap ReplayGroup.items)
    let object := ObjectRef.new H (journalKey (toHex (H.hash content))) content
    let references ← upload files rest
    .ok ((⟨object, segment.id, segment.firstSequence, segment.lastSequence⟩, content) :: references)

def validateInstalled (files : Listing) : List JournalRef → Except String Unit
  | [] => .ok ()
  | r :: rest =>
    match files.find? (·.1 == r.id) with
    | none => .error "No such file or directory"
    | some (_, content) => do
      let _ ← Journal.validateSealedSegment H limits r.descriptor content
      validateInstalled files rest

/-- The records that a restored tail is replayed from. -/
def scanInstalled (directory : Directory) (head : RemoteHead) (checkpoint : Manifest) :
    Except String (List (Nat × Bytes)) := do
  validateTransport head checkpoint
  validateInstalled H limits (Disk.view directory) head.journal
  let (ops, j) ← Journal.openWithCheckpoint H limits checkpoint.checkpointSequence
    (Disk.view directory)
  ensure (j.durableSequence = head.sequence ∧ j.tailBytesDiscarded = 0)
    "remote journal replay frontier mismatch"
  let groups ← Journal.scan H j (Disk.view (Disk.run directory ops))
  let items := groups.flatMap ReplayGroup.items
  checkSequences H fromSlice "remote journal/WAL sequence mismatch" items
  .ok (items.filter fun item => decide (checkpoint.checkpointSequence < item.1))

end

end Varve.Tier
