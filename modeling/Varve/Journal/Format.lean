import Varve.Lib.Blake3
import Varve.Lib.Bytes
import Varve.Lib.Except

/-!
# The journal's on-disk format

`journal.rs`, format v1: the configuration and its bounds, the segment header, the framed group,
the seal, and `inspect_reader`, which checks a segment byte by byte and returns the groups it
visits.
-/

namespace Varve.Journal

open Result (ensure)
open Bytes (le le64 word)

/-- A hash function with 32-byte results; nothing else is asked of it. -/
structure Digest where
  hash : Bytes → Bytes
  length_hash : ∀ bytes, (hash bytes).length = 32

def blake3 : Digest := ⟨Blake3.hash, Blake3.length_hash⟩

def headerBytes : Nat := 64
def trailerBytes : Nat := 64
def reservedSealBytes : Nat := 64

/-- `VRVJNL01`, `VRVGRP01`, `VRVCMT01` and `VRVSEA01`. -/
def segmentMagic : Bytes := [86, 82, 86, 74, 78, 76, 48, 49]
def groupMagic : Bytes := [86, 82, 86, 71, 82, 80, 48, 49]
def commitMagic : Bytes := [86, 82, 86, 67, 77, 84, 48, 49]
def sealMagic : Bytes := [86, 82, 86, 83, 69, 65, 48, 49]
def version : Nat := 1

structure JournalConfig where
  maxTotalBytes : Nat
  segmentBytes : Nat
  maxSegments : Nat
  maxFrameBytes : Nat
  maxRecordBytes : Nat
  maxRecordsPerGroup : Nat
deriving DecidableEq, Repr

def JournalConfig.minimum (c : JournalConfig) : Nat :=
  c.maxFrameBytes + headerBytes + reservedSealBytes

def JournalConfig.validate (c : JournalConfig) : Except String Unit := do
  ensure (1 ≤ c.maxSegments ∧ c.maxSegments ≤ 65536) "invalid segment count bound"
  ensure (1 ≤ c.maxRecordsPerGroup ∧ c.maxRecordsPerGroup ≤ 65536) "invalid record count bound"
  ensure (137 ≤ c.maxFrameBytes ∧ c.maxFrameBytes ≤ 16 * 1024 * 1024) "invalid frame byte bound"
  ensure (0 < c.maxRecordBytes ∧ c.maxRecordBytes ≤ c.maxFrameBytes - 136)
    "record bound cannot fit a frame"
  ensure (c.minimum ≤ c.segmentBytes ∧ c.segmentBytes ≤ 1024 * 1024 * 1024)
    "invalid segment byte bound"
  ensure (c.minimum ≤ c.maxTotalBytes ∧ c.maxTotalBytes ≤ c.segmentBytes * c.maxSegments)
    "invalid total byte bound"

structure JournalConfig.Valid (c : JournalConfig) : Prop where
  segments : 1 ≤ c.maxSegments
  record : 0 < c.maxRecordBytes ∧ c.maxRecordBytes ≤ c.maxFrameBytes - 136
  frame : 137 ≤ c.maxFrameBytes ∧ c.maxFrameBytes ≤ 16 * 1024 * 1024
  segment : c.minimum ≤ c.segmentBytes ∧ c.segmentBytes ≤ 1024 * 1024 * 1024
  total : c.minimum ≤ c.maxTotalBytes ∧ c.maxTotalBytes ≤ c.segmentBytes * c.maxSegments

theorem JournalConfig.valid {c : JournalConfig} (h : c.validate = .ok ()) : c.Valid := by
  simp only [validate, Result.ensure_bind, Result.ensure_ok] at h
  obtain ⟨hs, -, hf, hr, hseg, ht⟩ := h
  exact ⟨hs.1, hr, hf, hseg, ht⟩

section
variable (H : Digest)

def headerFields (id first : Nat) : Bytes :=
  segmentMagic ++ le 4 version ++ le 4 0 ++ le64 id ++ le64 first

def segmentHeader (id first : Nat) : Bytes :=
  headerFields id first ++ H.hash (headerFields id first)

def groupFields (size first count : Nat) : Bytes :=
  groupMagic ++ le64 size ++ le64 first ++ le64 count

def groupHeader (size first count : Nat) : Bytes :=
  groupFields size first count ++ H.hash (groupFields size first count)

def encodeRecords (records : List Bytes) : Bytes :=
  records.flatMap fun record => le64 record.length ++ record

def trailerFields (first last size : Nat) : Bytes :=
  commitMagic ++ le64 first ++ le64 last ++ le64 size

def encode (records : List Bytes) (size first last : Nat) : Bytes :=
  let frame := groupHeader H size first records.length ++ encodeRecords records ++
    trailerFields first last size
  frame ++ H.hash frame

def sealFields (id next bytes : Nat) : Bytes := sealMagic ++ le64 id ++ le64 next ++ le64 bytes

/-- The seal over a segment whose hasher was fed `hashed`. -/
def sealOf (hashed : Bytes) (id next bytes : Nat) : Bytes :=
  sealFields id next bytes ++ H.hash (hashed ++ sealFields id next bytes)

end

/-- The size of a frame, as `append_plan` adds it up. -/
def frameSize (records : List Bytes) : Nat :=
  headerBytes + trailerBytes + (records.map fun record => 8 + record.length).sum

-- Inspection

structure Segment where
  id : Nat
  len : Nat
  first : Nat
  last : Nat
deriving DecidableEq, Repr

structure ReplayGroup where
  first : Nat
  count : Nat
  records : Bytes
deriving DecidableEq, Repr

/-- The payloads of a record region, read by its length words. -/
def splitRecords : Nat → Bytes → List Bytes
  | 0, _ => []
  | count + 1, rest =>
    let len := word rest 0
    (rest.drop 8).take len :: splitRecords count (rest.drop (8 + len))

/-- `ReplayGroup::records`: every payload with its sequence. -/
def ReplayGroup.items (g : ReplayGroup) : List (Nat × Bytes) :=
  (List.range' g.first g.count).zip (splitRecords g.count g.records)

structure ScanEnd where
  next : Nat
  validLen : Nat
  sealed : Bool
  repairHeader : Bool
  hash : Bytes
deriving DecidableEq, Repr

def readExact (rest : Bytes) (n : Nat) : Except String (Bytes × Bytes) :=
  if n ≤ rest.length then .ok (rest.take n, rest.drop n)
  else .error "failed to fill whole buffer"

/-- The record lengths of a complete frame, from `cursor` to its trailer. -/
def checkRecords (config : JournalConfig) (frame : Bytes) (trailer : Nat) :
    Nat → Nat → Except String Unit
  | 0, cursor => ensure (cursor = trailer) "group record count/extent mismatch"
  | count + 1, cursor => do
    ensure (cursor + 8 ≤ trailer) "missing record length"
    let len := word frame cursor
    ensure (len ≤ config.maxRecordBytes) "record byte bound"
    ensure (len ≤ trailer - (cursor + 8)) "record crosses commit trailer"
    checkRecords config frame trailer count (cursor + 8 + len)

section
variable (H : Digest) (config : JournalConfig) (segment : Segment) (allowTail : Bool)

/-- What a group header must say where `next` is expected at `pos`: the frame's
size and the number of its records. -/
def checkGroupHeader (header : Bytes) (pos next : Nat) : Except String (Nat × Nat) := do
  ensure (header.take 8 = groupMagic) "unknown group format"
  ensure (H.hash (header.take 32) = header.drop 32) "group header checksum mismatch"
  let size := word header 8
  let groupFirst := word header 16
  let count := word header 24
  ensure (0 < count ∧ count ≤ config.maxRecordsPerGroup) "group record count bound"
  ensure (headerBytes + trailerBytes + count * 8 ≤ size ∧ size ≤ config.maxFrameBytes)
    "group frame byte bound"
  ensure (groupFirst = next) "record sequence gap"
  ensure (next + count < 2 ^ 64) "record sequence overflow"
  ensure (pos + size + reservedSealBytes ≤ config.segmentBytes)
    "group exceeds segment seal reserve"
  .ok (size, count)

def checkFrame (frame : Bytes) (size count next : Nat) : Except String Unit := do
  let trailer := size - trailerBytes
  ensure ((frame.drop trailer).take 8 = commitMagic ∧ word frame (trailer + 8) = next ∧
      word frame (trailer + 16) = next + count - 1 ∧ word frame (trailer + 24) = size)
    "invalid complete commit trailer"
  ensure (H.hash (frame.take (size - 32)) = frame.drop (size - 32))
    "complete group checksum mismatch"
  checkRecords config frame trailer count headerBytes

/-- The loop of `inspect_reader`; every iteration reads at least one byte. -/
def inspectLoop : Nat → Bytes → Nat → Nat → Bytes →
    Except String (List ReplayGroup × ScanEnd)
  | 0, _, _, _, _ => .error "unreachable"
  | fuel + 1, rest, pos, next, hash =>
    if pos < segment.len then
      let remaining := segment.len - pos
      if remaining < headerBytes then do
        ensure (allowTail = true) "incomplete interior group/seal header"
        .ok ([], ⟨next, pos, false, false, hash⟩)
      else do
        let (header, rest) ← readExact rest headerBytes
        if header.take 8 = sealMagic then do
          ensure (word header 8 = segment.id ∧ word header 16 = next ∧
              word header 24 = pos + reservedSealBytes ∧ pos + reservedSealBytes = segment.len)
            "invalid segment seal extent/sequence"
          let hash := hash ++ header.take 32
          ensure (H.hash hash = header.drop 32) "segment seal checksum mismatch"
          .ok ([], ⟨next, segment.len, true, false, hash⟩)
        else do
          let (size, count) ← checkGroupHeader H config header pos next
          if remaining < size then do
            ensure (allowTail = true) "incomplete interior group"
            .ok ([], ⟨next, pos, false, false, hash⟩)
          else do
            let (body, rest) ← readExact rest (size - headerBytes)
            let frame := header ++ body
            checkFrame H config frame size count next
            let group := ⟨next, count, (frame.take (size - trailerBytes)).drop headerBytes⟩
            let (groups, scanEnd) ← inspectLoop fuel rest (pos + size) (next + count)
              (hash ++ frame)
            .ok (group :: groups, scanEnd)
    else .ok ([], ⟨next, pos, false, false, hash⟩)

def inspectReader (file : Bytes) (first : Nat) : Except String (List ReplayGroup × ScanEnd) := do
  let expected := segmentHeader H segment.id first
  let n := min segment.len headerBytes
  let (header, rest) ← readExact file n
  ensure (header = expected.take n) "segment header/version/sequence/checksum mismatch"
  if n < headerBytes then do
    ensure (allowTail = true) "incomplete interior segment header"
    .ok ([], ⟨first, headerBytes, false, true, expected⟩)
  else inspectLoop H config segment allowTail (segment.len + 1) rest headerBytes first expected

/-- `inspect`: the file must still have the length the directory gave. -/
def inspect (file : Bytes) (first : Nat) : Except String (List ReplayGroup × ScanEnd) := do
  ensure (file.length = segment.len) "segment length changed during scan"
  inspectReader H config segment allowTail file first

end

end Varve.Journal
