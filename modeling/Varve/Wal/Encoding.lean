import Varve.Wal.Frame
import Varve.Engine.Catalog

/-!
# Encoded records

`wal.rs`: the operations of a record and their JSON text, the owned and the borrowed encoders, and
the fingerprint of a group of appends.
-/

namespace Varve.Wal

open Journal (Digest)
open Result (ensure bind_ok ensure_bind)
open Bytes (le64)
open Text (toHex utf8 len)
open Engine (F64 Row TableConfig LifecyclePolicy ContinuousAggregate RollupRow JobDefinition JobRun
  ReceiptEntry)

def maxGroupRequests : Nat := 1024

structure AppendItem (F : Type) where
  table : Text
  requestId : Text
  digest : Text
  rows : List (Row F)
  nowUs : Option Int

inductive Operation (F : Type) where
  | createTable (name : Text) (config : TableConfig)
  | append (table requestId digest : Text) (rows : List (Row F))
  | appendGroup (items : List (AppendItem F))
  | setPolicy (table : Text) (policy : LifecyclePolicy) (stamp : Text)
  | createContinuousAggregate (aggregate : ContinuousAggregate) (backfill : Map (RollupRow F))
      (stamp : Text)
  | dropContinuousAggregate (name stamp : Text)
  | putJob (job : JobDefinition) (stamp : Text)
  | dropJob (name stamp : Text)
  | jobStarted (name : Text) (run : JobRun) (manual : Bool)
  | jobFinished (name : Text) (run : JobRun) (nextRunUs : Int)

/-- What the borrowed encoders serialize: references into prepared writes. -/
inductive BorrowedOperation (F : Type) where
  | append (table requestId digest : Text) (rows : List (Row F))
  | appendGroup (items : List (AppendItem F))

def Operation.grouped : Operation F → Bool
  | .appendGroup _ => true
  | _ => false

/-- A variant of an enumeration with `tag = "operation"`: the tag, then the fields. -/
def tagged (tag : Text) (fields : List (Text × Text)) : Text :=
  Json.object (("operation".toList, Json.string tag) :: fields)

def policyJson (p : LifecyclePolicy) : Text :=
  Json.object [("late_after_us".toList, Json.option Json.int p.lateAfterUs),
    ("retention_us".toList, Json.option Json.int p.retentionUs),
    ("archive_after_us".toList, Json.option Json.int p.archiveAfterUs),
    ("rollup_retention_us".toList, Json.option Json.int p.rollupRetentionUs),
    ("idempotency_window_us".toList, Json.option Json.int p.idempotencyWindowUs)]

section
variable {F : Type} [F64 F]

def AppendItem.json (item : AppendItem F) : Text :=
  Json.object ([("table".toList, Json.string item.table),
      ("request_id".toList, Json.string item.requestId),
      ("digest".toList, Json.string item.digest),
      ("rows".toList, Json.array (item.rows.map Row.json))] ++
    item.nowUs.toList.map fun now => ("now_us".toList, Json.int now))

def Operation.json : Operation F → Text
  | .createTable name config =>
    tagged "create_table".toList [("name".toList, Json.string name),
      ("config".toList, config.json)]
  | .append table requestId digest rows =>
    tagged "append".toList [("table".toList, Json.string table),
      ("request_id".toList, Json.string requestId), ("digest".toList, Json.string digest),
      ("rows".toList, Json.array (rows.map Row.json))]
  | .appendGroup items =>
    tagged "append_group".toList [("items".toList, Json.array (items.map AppendItem.json))]
  | .setPolicy table policy stamp =>
    tagged "set_policy".toList [("table".toList, Json.string table),
      ("policy".toList, policyJson policy), ("stamp".toList, Json.string stamp)]
  | .createContinuousAggregate aggregate backfill stamp =>
    tagged "create_continuous_aggregate".toList [("aggregate".toList, aggregate.json),
      ("backfill".toList, backfill.json RollupRow.json), ("stamp".toList, Json.string stamp)]
  | .dropContinuousAggregate name stamp =>
    tagged "drop_continuous_aggregate".toList [("name".toList, Json.string name),
      ("stamp".toList, Json.string stamp)]
  | .putJob job stamp =>
    tagged "put_job".toList [("job".toList, job.json), ("stamp".toList, Json.string stamp)]
  | .dropJob name stamp =>
    tagged "drop_job".toList [("name".toList, Json.string name),
      ("stamp".toList, Json.string stamp)]
  | .jobStarted name run manual =>
    tagged "job_started".toList [("name".toList, Json.string name), ("run".toList, run.json),
      ("manual".toList, Json.bool manual)]
  | .jobFinished name run nextRunUs =>
    tagged "job_finished".toList [("name".toList, Json.string name), ("run".toList, run.json),
      ("next_run_us".toList, Json.int nextRunUs)]

def BorrowedOperation.json : BorrowedOperation F → Text
  | .append table requestId digest rows =>
    tagged "append".toList [("table".toList, Json.string table),
      ("request_id".toList, Json.string requestId), ("digest".toList, Json.string digest),
      ("rows".toList, Json.array (rows.map Row.json))]
  | .appendGroup items =>
    tagged "append_group".toList [("items".toList, Json.array (items.map AppendItem.json))]

/-- A record of either kind, from the text of its operation. -/
def Record.jsonWith (operation : Op → Text) (r : Record Op) : Text :=
  Json.object [("format_version".toList, Json.nat r.formatVersion),
    ("sequence".toList, Json.nat r.sequence), ("operation".toList, operation r.operation)]

def Record.json (r : Record (Operation F)) : Text := r.jsonWith Operation.json

def AppendItem.operation (item : AppendItem F) : Operation F :=
  .append item.table item.requestId item.digest item.rows

end

structure EncodedRecord where
  sequence : Nat
  bytes : Bytes
  grouped : Bool
deriving DecidableEq

/-- `varve/append-group-proof/v1` and a zero byte. -/
def proofDomain : Bytes := utf8 "varve/append-group-proof/v1".toList ++ [0]

section
variable {F : Type} [F64 F] (H : Digest)

def encode (record : Record (Operation F)) : Except String Bytes :=
  encodePayload H (utf8 record.json) maxFrameBytes

namespace EncodedRecord

def new (record : Record (Operation F)) : Except String EncodedRecord := do
  let bytes ← encode H record
  .ok ⟨record.sequence, bytes, record.operation.grouped⟩

def append (sequence : Nat) (item : AppendItem F) : Except String EncodedRecord := do
  let record : Record (BorrowedOperation F) :=
    ⟨formatVersion, sequence, .append item.table item.requestId item.digest item.rows⟩
  let bytes ← encodePayload H (utf8 (record.jsonWith BorrowedOperation.json)) maxFrameBytes
  .ok ⟨sequence, bytes, false⟩

def appendGroup (sequence : Nat) (items : List (AppendItem F)) : Except String EncodedRecord := do
  ensure (items ≠ [] ∧ items.length ≤ maxGroupRequests) "invalid WAL group request count"
  let record : Record (BorrowedOperation F) := ⟨formatVersion, sequence, .appendGroup items⟩
  let bytes ← encodePayload H (utf8 (record.jsonWith BorrowedOperation.json)) maxFrameBytes
  .ok ⟨sequence, bytes, true⟩

/-- The fingerprint of an encoded group, from the payload of its frame. -/
def groupFingerprint (encoded : EncodedRecord) : Option Text :=
  if encoded.grouped then
    some (toHex (H.hash (proofDomain ++
      (encoded.bytes.take (encoded.bytes.length - 32)).drop 16)))
  else none

end EncodedRecord

def groupFingerprint (record : Record (Operation F)) : Option Text :=
  if record.operation.grouped then some (toHex (H.hash (proofDomain ++ utf8 record.json)))
  else none

end

/-- `AppendOverlay::fingerprint`: the staged receipts of a group get its proof. -/
def fingerprint (sequence : Nat) (proof : Option Text) (receipts : List ReceiptEntry) :
    Except String (List ReceiptEntry) :=
  receipts.mapM fun receipt => do
    ensure (receipt.sequence = sequence) "staged group sequence mismatch"
    ensure (receipt.groupFingerprint.map len = proof.map len) "group proof reservation mismatch"
    .ok { receipt with groupFingerprint := proof }

-- The codec

section
variable {F : Type} [F64 F] {H : Digest} {sequence : Nat}

theorem borrowed_append (sequence : Nat) (item : AppendItem F) :
    EncodedRecord.append H sequence item =
      EncodedRecord.new H (.new sequence item.operation) := rfl

theorem borrowed_appendGroup {items : List (AppendItem F)} (hne : items ≠ [])
    (hle : items.length ≤ maxGroupRequests) :
    EncodedRecord.appendGroup H sequence items =
      EncodedRecord.new H (.new sequence (.appendGroup items)) := by
  rw [EncodedRecord.appendGroup, Result.ensure_pos ⟨hne, hle⟩]
  rfl

theorem encodePayload_fits (h : payload.length + 48 ≤ maxFrameBytes) :
    encodePayload H payload maxFrameBytes = .ok (frame H payload) := by
  rw [encodePayload, Result.ensure_pos (by decide), Result.ok_bind, Result.ensure_pos (by omega),
    Result.ok_bind]

theorem encodePayload_ok (he : encodePayload H payload limit = .ok bytes) :
    bytes = frame H payload := by
  simp only [encodePayload, ensure_bind, Except.ok.injEq] at he
  exact he.2.2.symm

variable {record : Record (Operation F)}

theorem new_ok (h : EncodedRecord.new H record = .ok encoded) :
    encode H record = .ok encoded.bytes ∧ encoded.bytes = frame H (utf8 record.json) ∧
      encoded.grouped = record.operation.grouped := by
  obtain ⟨bytes, he, h⟩ := bind_ok.mp h
  cases h
  exact ⟨he, encodePayload_ok he, rfl⟩

theorem new_fits
    (h : (utf8 record.json).length + 48 ≤ maxFrameBytes) :
    EncodedRecord.new H record =
      .ok ⟨record.sequence, frame H (utf8 record.json), record.operation.grouped⟩ := by
  rw [EncodedRecord.new, encode, encodePayload_fits h, Result.ok_bind]

theorem payload_of_frame :
    ((frame H payload).take ((frame H payload).length - 32)).drop 16 = payload := by
  have hsub : payload.length + 48 - 32 = payload.length + 16 := rfl
  rw [length_frame, hsub, take_frame]
  exact List.drop_left' (by simp [magic])

theorem decode_ok {fromSlice : Bytes → Except String (Record Op)} {record : Record Op} :
    decode H fromSlice bytes = .ok record ↔ ∃ payload, bytes = frame H payload ∧
      payload.length + 48 ≤ maxFrameBytes ∧ fromSlice payload = .ok record ∧
      record.formatVersion = formatVersion ∧ 0 < record.sequence := by
  constructor
  · intro h
    simp only [decode, ensure_bind] at h
    obtain ⟨⟨hmin, hmax⟩, hmagic, hlen, hhash, h⟩ := h
    obtain ⟨r, hread, h⟩ := bind_ok.mp h
    simp only [ensure_bind, Except.ok.injEq] at h
    obtain ⟨⟨hv, hs⟩, rfl⟩ := h
    refine ⟨(bytes.take (bytes.length - 32)).drop 16, ?_, ?_, hread, hv, hs⟩
    · have hpay : ((bytes.take (bytes.length - 32)).drop 16).length = bytes.length - 48 := by
        rw [List.length_drop, List.length_take]
        omega
      have hword : le64 (bytes.length - 48) = (bytes.drop 8).take 8 := by
        rw [← hlen]
        exact Bytes.le64_word (by omega)
      have hcontent : magic ++ le64 (bytes.length - 48) ++
          (bytes.take (bytes.length - 32)).drop 16 = bytes.take (bytes.length - 32) := by
        have htake : (bytes.take (bytes.length - 32)).take 16 =
            bytes.take 8 ++ (bytes.drop 8).take 8 := by
          rw [List.take_take, Nat.min_eq_left (by omega)]
          show bytes.take (8 + 8) = _
          exact List.take_add
        rw [← hmagic, hword, ← htake, List.take_append_drop]
      rw [frame, hpay, hcontent, hhash, List.take_append_drop]
    · rw [List.length_drop, List.length_take]
      omega
  · rintro ⟨payload, rfl, hlen, hread, hv, hs⟩
    exact decode_encodePayload (encodePayload_fits hlen) (Nat.le_refl _) hread hv hs

theorem groupFingerprint_new
    (h : EncodedRecord.new H record = .ok encoded) :
    encoded.groupFingerprint H = groupFingerprint H record := by
  obtain ⟨-, hbytes, hgrouped⟩ := new_ok h
  rw [EncodedRecord.groupFingerprint, groupFingerprint, hgrouped, hbytes, payload_of_frame]

theorem fingerprint_ok (h : fingerprint sequence proof receipts = .ok result) :
    ∀ receipt ∈ result, receipt.sequence = sequence ∧ receipt.groupFingerprint = proof := by
  induction receipts generalizing result with
  | nil =>
    cases h
    simp
  | cons receipt receipts ih =>
    rw [fingerprint, List.mapM_cons] at h
    obtain ⟨first, hfirst, h⟩ := bind_ok.mp h
    obtain ⟨rest, hrest, h⟩ := bind_ok.mp h
    cases h
    simp only [ensure_bind, Except.ok.injEq] at hfirst
    obtain ⟨hs, -, rfl⟩ := hfirst
    exact List.forall_mem_cons.mpr ⟨⟨hs, rfl⟩, ih hrest⟩

/-- The borrowed encoders write what the owned one writes; a frame is decoded to the record it was
made from, with the fingerprint that its encoding had; and only frames are decoded. -/
theorem codec_exact {fromSlice : Bytes → Except String (Record (Operation F))} :
    (∀ (sequence : Nat) (item : AppendItem F), EncodedRecord.append H sequence item =
      EncodedRecord.new H (.new sequence item.operation)) ∧
    (∀ (sequence : Nat) (items : List (AppendItem F)), EncodedRecord.appendGroup H sequence items =
      if items ≠ [] ∧ items.length ≤ maxGroupRequests then
        EncodedRecord.new H (.new sequence (.appendGroup items))
      else .error "invalid WAL group request count") ∧
    (∀ (record : Record (Operation F)) (encoded : EncodedRecord),
      EncodedRecord.new H record = .ok encoded → record.formatVersion = formatVersion →
      0 < record.sequence → fromSlice (utf8 record.json) = .ok record →
      decode H fromSlice encoded.bytes = .ok record ∧ encoded.sequence = record.sequence ∧
        encoded.groupFingerprint H = groupFingerprint H record ∧
        ∀ sequence receipts staged,
          fingerprint sequence (encoded.groupFingerprint H) receipts = .ok staged →
          ∀ receipt ∈ staged, receipt.groupFingerprint = groupFingerprint H record) ∧
    ∀ (bytes : Bytes) (record : Record (Operation F)),
      decode H fromSlice bytes = .ok record ↔ ∃ payload, bytes = frame H payload ∧
        payload.length + 48 ≤ maxFrameBytes ∧ fromSlice payload = .ok record ∧
        record.formatVersion = formatVersion ∧ 0 < record.sequence := by
  refine ⟨borrowed_append, ?_, ?_, fun _ _ => decode_ok⟩
  · intro sequence items
    split
    next h => exact borrowed_appendGroup h.1 h.2
    next h => rw [EncodedRecord.appendGroup, Result.ensure_neg h, Result.error_bind]
  · intro record encoded h hv hs hread
    obtain ⟨he, -, -⟩ := new_ok h
    have hproof := groupFingerprint_new h
    refine ⟨decode_encodePayload he (Nat.le_refl _) hread hv hs, ?_, hproof, ?_⟩
    · obtain ⟨bytes, -, h⟩ := bind_ok.mp h
      cases h
      rfl
    · intro sequence receipts staged hf receipt hr
      rw [(fingerprint_ok hf receipt hr).2, hproof]

end

@[reducible] def noValues : F64 Unit :=
  ⟨fun _ => true, fun _ _ => (), fun _ _ => (), fun _ _ => (), fun _ _ => true, fun _ => []⟩

def emptyItem : AppendItem Unit := ⟨"t".toList, "r".toList, "d".toList, [], none⟩

/-- A frame under sequence zero is written and never read. -/
theorem zero_sequence_refused :
    ∃ encoded, @EncodedRecord.append Unit noValues Journal.blake3 0 emptyItem = .ok encoded ∧
      ∀ (fromSlice : Bytes → Except String (Record (Operation Unit))) (operation : Operation Unit),
        decode Journal.blake3 fromSlice encoded.bytes ≠ .ok (.new 0 operation) := by
  have hencoded : @EncodedRecord.append Unit noValues Journal.blake3 0 emptyItem = .ok _ :=
    @new_fits Unit noValues _ (.new 0 emptyItem.operation) (by decide +kernel)
  refine ⟨_, hencoded, fun fromSlice operation h => ?_⟩
  obtain ⟨-, -, -, -, -, hs⟩ := decode_ok.mp h
  exact Nat.lt_irrefl 0 hs

/-- Values of one bit. -/
@[reducible] def bits : F64 Bool :=
  ⟨fun _ => true, xor, and, or, fun a b => !a || b, fun b => [if b then '1' else '0']⟩

def twoItems : List (AppendItem Bool) :=
  [⟨"t".toList, "r".toList, "d".toList,
      [⟨5, ['a'], ['s'], true, ∅⟩, ⟨-7, ['b'], [], false, ∅⟩], none⟩,
    ⟨"u".toList, "q".toList, "e".toList, [⟨0, ['a'], ['"'], true, ∅⟩], some 9⟩]

def itemsRecord : Record (Operation Bool) := .new 1 (.appendGroup twoItems)

def readItems (bytes : Bytes) : Except String (Record (Operation Bool)) :=
  if bytes = utf8 (@Record.json Bool bits itemsRecord) then .ok itemsRecord
  else .error "invalid WAL JSON"

theorem codec_exact_items :
    ∃ encoded, @EncodedRecord.appendGroup Bool bits Journal.blake3 1 twoItems = .ok encoded ∧
      decode Journal.blake3 readItems encoded.bytes = .ok itemsRecord ∧
      encoded.groupFingerprint Journal.blake3 =
        @groupFingerprint Bool bits Journal.blake3 itemsRecord := by
  obtain ⟨-, hgroup, hdecode, -⟩ := @codec_exact Bool bits Journal.blake3 readItems
  have hencoded : @EncodedRecord.new Bool bits Journal.blake3 itemsRecord = .ok _ :=
    @new_fits Bool bits _ _ (by decide +kernel)
  obtain ⟨hread, -, hproof, -⟩ :=
    hdecode itemsRecord _ hencoded rfl Nat.one_pos (if_pos rfl)
  refine ⟨_, ?_, hread, hproof⟩
  rw [hgroup, if_pos (by decide)]
  exact hencoded

end Varve.Wal
