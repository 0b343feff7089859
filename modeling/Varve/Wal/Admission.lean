import Varve.Lib.Growth
import Varve.Lib.JsonSizes
import Varve.Memory.Budget
import Varve.Wal.Encoding

/-!
# Admission charges and frame credits

`admission_bytes` in `engine.rs` and `write_input.rs`: what a write request is charged before its
group is packed, and the raw memory credit it brings for the frame of the group.
-/

namespace Varve.Wal

open Journal (Digest)
open Result (ensure bind_ok ensure_bind ensure_pos ok_bind)
open Text (len utf8 toHex)
open Memory (saturate usizeMax rowCharge RawReservation RawMemoryStatus Fault Failure)
open Engine (F64 Row i64Min i64Max u64Max validateName validateRequestId)

/-- `size_of::<Row>()`. -/
def sizeOfRow : Nat := 88

/-- A `String`. -/
structure Owned where
  text : Text
  capacity : Nat
  fits : len text ≤ capacity

/-- A row with the capacities of its strings; those of a tag go by its key. -/
structure InputRow (F : Type) where
  row : Row F
  tenantCapacity : Nat
  seriesCapacity : Nat
  keyCapacity : Text → Nat
  valueCapacity : Text → Nat
  timestamp : i64Min ≤ row.timestampUs ∧ row.timestampUs ≤ i64Max
  tenant_fits : len row.tenant ≤ tenantCapacity
  series_fits : len row.series ≤ seriesCapacity
  tags_fit : ∀ p ∈ row.tags.toList, len p.1 ≤ keyCapacity p.1 ∧ len p.2 ≤ valueCapacity p.1

structure WriteRequest (F : Type) where
  table : Owned
  requestId : Owned
  rows : List (InputRow F)
  rowsCapacity : Nat
  nowUs : Int
  rows_fit : rows.length ≤ rowsCapacity
  clock : i64Min ≤ nowUs ∧ nowUs ≤ i64Max

variable {F : Type}

def InputRow.addTags (input : InputRow F) (bytes : Nat) : Nat :=
  input.row.tags.toList.foldl (fun bytes p =>
    saturate (saturate (bytes + input.keyCapacity p.1) + input.valueCapacity p.1)) bytes

def addRow [F64 F] (bytes : Nat) (input : InputRow F) : Except String Nat := do
  input.row.validate
  .ok (input.addTags (saturate (saturate (saturate (bytes +
    saturate (input.row.estimatedBytes * 6)) + input.tenantCapacity) + input.seriesCapacity)))

def WriteRequest.admissionBytes [F64 F] (r : WriteRequest F) : Except String Nat := do
  validateName r.table.text
  validateRequestId r.requestId.text
  ensure (r.rows ≠ []) "batch row admission limit"
  let bytes ← r.rows.foldlM addRow (saturate (saturate (saturate (512 +
    saturate (r.table.capacity * 6)) + saturate (r.requestId.capacity * 6)) +
    saturate (r.rowsCapacity * sizeOfRow)))
  ensure (bytes < usizeMax) "request byte accounting overflow"
  .ok bytes

def checkedAdd (a b : Nat) (e : String) : Except String Nat := do
  ensure (a + b ≤ usizeMax) e
  .ok (a + b)

def checkedMul (a b : Nat) (e : String) : Except String Nat := do
  ensure (a * b ≤ usizeMax) e
  .ok (a * b)

def residentBytes (rows : List (InputRow F)) : Except String Nat :=
  rows.foldlM (fun bytes input =>
    checkedAdd bytes input.row.estimatedBytes "row memory accounting overflow") 0

/-- What the strings of a row hold beyond their lengths. -/
def InputRow.slack (input : InputRow F) : List Nat :=
  (input.tenantCapacity - len input.row.tenant) :: (input.seriesCapacity - len input.row.series) ::
    input.row.tags.toList.flatMap fun p =>
      [input.keyCapacity p.1 - len p.1, input.valueCapacity p.1 - len p.2]

def excess (rows : List (InputRow F)) : Except String Nat :=
  (rows.flatMap InputRow.slack).foldlM (fun n slack =>
    checkedAdd n slack "input capacity overflow") 0

section
variable [F64 F]

def rowsJson (rows : List (InputRow F)) : Text :=
  Json.array (rows.map fun input => input.row.json)

def WriteRequest.frameBytes (r : WriteRequest F) : Except String Nat := do
  let encoded ← checkedAdd 0 (len (rowsJson r.rows)) "JSON length overflow"
  let identifiers ← checkedMul (len r.table.text + len r.requestId.text) 6 "frame overflow"
  let frame ← checkedAdd encoded identifiers "frame overflow"
  checkedAdd frame 512 "frame overflow"

/-- The envelope, and the part of it that pays for the stored rows. -/
def allocationEnvelope (r : WriteRequest F) : Except String (Nat × Nat) := do
  let logical ← residentBytes r.rows
  let excess ← excess r.rows
  let retained ← checkedAdd (rowCharge logical) excess "retained row overflow"
  let frame ← r.frameBytes
  let vector ← checkedMul r.rowsCapacity sizeOfRow "input vector overflow"
  let envelope ← checkedAdd retained vector "raw admission envelope overflow"
  let envelope ← checkedAdd envelope r.table.capacity "raw admission envelope overflow"
  let envelope ← checkedAdd envelope r.requestId.capacity "raw admission envelope overflow"
  let growth ← checkedMul frame 3 "raw admission envelope overflow"
  let envelope ← checkedAdd envelope (max growth 4096) "raw admission envelope overflow"
  let envelope ← checkedAdd envelope (8192 + 512) "raw admission envelope overflow"
  .ok (envelope, retained)

structure AdmittedWrite (F : Type) where
  request : WriteRequest F
  bytes : Nat
  rawBytes : Nat
  retainedBytes : Nat
  raw : Option RawReservation

structure PreparedWrite (F : Type) where
  item : AppendItem F
  raw : Option RawReservation
  retainedBytes : Nat
  admissionBytes : Nat
  encodedBytes : Nat
  residentBytes : Nat

def AdmittedWrite.new (request : WriteRequest F) : Except String (AdmittedWrite F) := do
  let bytes ← request.admissionBytes
  let envelope ← allocationEnvelope request
  .ok ⟨request, bytes, envelope.1, envelope.2, none⟩

def AdmittedWrite.reserve (w : AdmittedWrite F) (s : RawMemoryStatus) :
    Except Fault (Except Failure (AdmittedWrite F) × RawMemoryStatus) :=
  match w.raw with
  | some _ => .ok (.ok w, s)
  | none => do
    let reservation ← s.acquire w.rawBytes false
    .ok (reservation.1.map fun raw => { w with raw := some raw }, reservation.2)

variable (H : Digest)

def rowIdentity (rows : List (InputRow F)) (limit : Nat) : Except String (Nat × Text) := do
  ensure (len (rowsJson rows) ≤ limit) "batch byte admission limit"
  .ok (len (rowsJson rows), toHex (H.hash (utf8 (rowsJson rows))))

def AdmittedWrite.prepare (maxBatchRows maxBatchBytes : Nat) (w : AdmittedWrite F) :
    Except String (PreparedWrite F) := do
  ensure (w.request.rows.length ≤ maxBatchRows) "batch row admission limit"
  let identity ← rowIdentity H w.request.rows maxBatchBytes
  let resident ← residentBytes w.request.rows
  .ok ⟨⟨w.request.table.text, w.request.requestId.text, identity.2,
    w.request.rows.map InputRow.row, some w.request.nowUs⟩, w.raw, w.retainedBytes, w.bytes,
    identity.1, resident⟩

/-- A write that has been admitted, has its credit and is prepared. -/
def Prepared (p : PreparedWrite F) : Prop :=
  ∃ request w s reserved s' maxBatchRows maxBatchBytes,
    AdmittedWrite.new request = .ok w ∧ w.reserve s = .ok (.ok reserved, s') ∧
      reserved.prepare H maxBatchRows maxBatchBytes = .ok p

end

/-- The credit for the frame, and the write with what is left. -/
def PreparedWrite.detachFrameCredit (p : PreparedWrite F) :
    Except String (RawReservation × PreparedWrite F) :=
  match p.raw with
  | none => .error "prepared input lacks raw admission credit"
  | some r => do
    ensure (r.live = false ∧ p.retainedBytes ≤ r.bytes) "invalid raw credit split"
    .ok ({ r with bytes := r.bytes - p.retainedBytes },
      { p with raw := some ⟨p.retainedBytes, r.working, false⟩ })

/-- The frame that `append_group` makes. -/
def groupFrame [F64 F] (H : Digest) (sequence : Nat) (items : List (AppendItem F)) : Bytes :=
  frame H (utf8 (Record.jsonWith BorrowedOperation.json
    ⟨formatVersion, sequence, .appendGroup items⟩))

/-- The most that `encode_payload` holds for its buffer, from the pieces in which the payload is
written: the magic and the length, the payload, the checksum. -/
def framePeak (limit : Nat) (pieces : List Bytes) : Nat :=
  Growth.peak (min limit 4096) 0 (8 :: 8 :: (pieces.map List.length ++ [32]))

-- Charges are exact

theorem saturate_add (a b : Nat) : saturate (saturate a + b) = saturate (a + b) := by
  unfold saturate
  omega

theorem saturate_add_add (a b c : Nat) :
    saturate (saturate a + b + c) = saturate (a + b + c) := by
  unfold saturate
  omega

theorem saturate_add_right (a b : Nat) : saturate (a + saturate b) = saturate (a + b) := by
  unfold saturate
  omega

def InputRow.cost (input : InputRow F) : Nat :=
  input.row.estimatedBytes * 6 + input.tenantCapacity + input.seriesCapacity +
    input.row.tags.total fun k _ => input.keyCapacity k + input.valueCapacity k

theorem addTags_eq (input : InputRow F) (bytes : Nat) :
    input.addTags (saturate bytes) = saturate (bytes +
      input.row.tags.total fun k _ => input.keyCapacity k + input.valueCapacity k) := by
  rw [InputRow.addTags, Map.total]
  generalize input.row.tags.toList = tags
  induction tags generalizing bytes with
  | nil => rfl
  | cons p tags ih =>
    rw [List.foldl_cons, saturate_add, saturate_add_add, ih, List.map_cons, List.sum_cons]
    congr 1
    omega

section
variable [F64 F]

theorem addRow_ok {input : InputRow F} (h : addRow (saturate bytes) input = .ok result) :
    input.row.validate = .ok () ∧ result = saturate (bytes + input.cost) := by
  obtain ⟨_, hvalid, h⟩ := bind_ok.mp h
  refine ⟨hvalid, ?_⟩
  simp only [saturate_add_right, saturate_add, addTags_eq] at h
  cases h
  rw [InputRow.cost]
  congr 1
  omega

theorem foldlM_addRow {rows : List (InputRow F)}
    (h : rows.foldlM addRow (saturate bytes) = .ok result) :
    (∀ input ∈ rows, input.row.validate = .ok ()) ∧
      result = saturate (bytes + (rows.map InputRow.cost).sum) := by
  induction rows generalizing bytes with
  | nil =>
    cases h
    exact ⟨fun _ h => (nomatch h), rfl⟩
  | cons input rows ih =>
    rw [List.foldlM_cons] at h
    obtain ⟨next, hnext, h⟩ := bind_ok.mp h
    obtain ⟨hvalid, rfl⟩ := addRow_ok hnext
    obtain ⟨hall, rfl⟩ := ih h
    refine ⟨List.forall_mem_cons.mpr ⟨hvalid, hall⟩, ?_⟩
    rw [List.map_cons, List.sum_cons, Nat.add_assoc]

theorem admissionBytes_ok {r : WriteRequest F} (h : r.admissionBytes = .ok bytes) :
    r.rows ≠ [] ∧ (∀ input ∈ r.rows, input.row.validate = .ok ()) ∧
      bytes = 512 + r.table.capacity * 6 + r.requestId.capacity * 6 +
        r.rowsCapacity * sizeOfRow + (r.rows.map InputRow.cost).sum := by
  obtain ⟨_, -, h⟩ := bind_ok.mp h
  obtain ⟨_, -, h⟩ := bind_ok.mp h
  obtain ⟨hne, h⟩ := ensure_bind.mp h
  obtain ⟨total, htotal, h⟩ := bind_ok.mp h
  obtain ⟨hlt, h⟩ := ensure_bind.mp h
  cases h
  simp only [saturate_add_right, saturate_add] at htotal
  obtain ⟨hall, rfl⟩ := foldlM_addRow htotal
  refine ⟨hne, hall, ?_⟩
  unfold saturate at hlt ⊢
  omega

theorem checkedAdd_ok (h : checkedAdd a b e = .ok n) : n = a + b := by
  cases (ensure_bind.mp h).2
  rfl

theorem checkedMul_ok (h : checkedMul a b e = .ok n) : n = a * b := by
  cases (ensure_bind.mp h).2
  rfl

theorem frameBytes_ok {r : WriteRequest F} (h : r.frameBytes = .ok bytes) :
    bytes = len (rowsJson r.rows) + (len r.table.text + len r.requestId.text) * 6 + 512 := by
  obtain ⟨encoded, hencoded, h⟩ := bind_ok.mp h
  obtain ⟨identifiers, hidentifiers, h⟩ := bind_ok.mp h
  obtain ⟨both, hboth, h⟩ := bind_ok.mp h
  rw [checkedAdd_ok h, checkedAdd_ok hboth, checkedMul_ok hidentifiers, checkedAdd_ok hencoded,
    Nat.zero_add]

theorem allocationEnvelope_ok {r : WriteRequest F} (h : allocationEnvelope r = .ok envelope) :
    envelope.2 + max ((len (rowsJson r.rows) +
      (len r.table.text + len r.requestId.text) * 6 + 512) * 3) 4096 ≤ envelope.1 := by
  obtain ⟨logical, -, h⟩ := bind_ok.mp h
  obtain ⟨slack, -, h⟩ := bind_ok.mp h
  obtain ⟨retained, -, h⟩ := bind_ok.mp h
  obtain ⟨frame, hframe, h⟩ := bind_ok.mp h
  obtain ⟨vector, -, h⟩ := bind_ok.mp h
  obtain ⟨n1, h1, h⟩ := bind_ok.mp h
  obtain ⟨n2, h2, h⟩ := bind_ok.mp h
  obtain ⟨n3, h3, h⟩ := bind_ok.mp h
  obtain ⟨growth, hgrowth, h⟩ := bind_ok.mp h
  obtain ⟨n4, h4, h⟩ := bind_ok.mp h
  obtain ⟨n5, h5, h⟩ := bind_ok.mp h
  cases h
  rw [← frameBytes_ok hframe]
  have e1 := checkedAdd_ok h1
  have e2 := checkedAdd_ok h2
  have e3 := checkedAdd_ok h3
  have e4 := checkedAdd_ok h4
  have e5 := checkedAdd_ok h5
  have eg := checkedMul_ok hgrowth
  dsimp only
  omega

-- The JSON of a group

theorem len_tags_le (tags : Map Text) :
    len (tags.json Json.string) ≤ 2 + 6 * tags.total fun k v => len k + len v + 64 := by
  rw [Map.json, Json.len_object, Map.total]
  simp only [List.map_map, List.length_map, Function.comp_def]
  suffices h : (tags.toList.map fun p => len (Json.string p.1) + 1 + len (Json.string p.2)).sum +
      tags.toList.length ≤ 6 * (tags.toList.map fun p => len p.1 + len p.2 + 64).sum by
    omega
  induction tags.toList with
  | nil => simp
  | cons p tags ih =>
    have hkey := Json.len_string_le p.1
    have hvalue := Json.len_string_le p.2
    simp only [List.map_cons, List.sum_cons, List.length_cons]
    omega

theorem len_i64_le (h : i64Min ≤ i ∧ i ≤ i64Max) : len (Json.int i) ≤ 20 := by
  refine Json.len_int_le (k := 19) (by decide) ?_
  unfold i64Min i64Max at h
  omega

variable (hf : ∀ v : F, F64.isFinite v = true → len (F64.text v) ≤ 24)
include hf

theorem len_row_le {input : InputRow F} (hv : input.row.validate = .ok ()) :
    len input.row.json + 1 ≤ input.row.estimatedBytes * 6 := by
  have hvalue := hf _ (ensure_bind.mp hv).1
  have htime := len_i64_le input.timestamp
  have htenant := Json.len_string_le input.row.tenant
  have hseries := Json.len_string_le input.row.series
  have htags := len_tags_le input.row.tags
  have k1 : len (Json.string "timestamp_us".toList) = 14 := by decide
  have k2 : len (Json.string "tenant".toList) = 8 := by decide
  have k3 : len (Json.string "series".toList) = 8 := by decide
  have k4 : len (Json.string "value".toList) = 7 := by decide
  have k5 : len (Json.string "tags".toList) = 6 := by decide
  rw [Row.json, Json.len_object, Row.estimatedBytes]
  simp only [List.map_cons, List.map_nil, List.sum_cons, List.sum_nil, List.length_cons,
    List.length_nil, k1, k2, k3, k4, k5]
  omega

theorem len_rowsJson_le {rows : List (InputRow F)}
    (hv : ∀ input ∈ rows, input.row.validate = .ok ()) :
    len (rowsJson rows) ≤ 2 + (rows.map InputRow.cost).sum := by
  rw [rowsJson, Json.len_array, List.map_map, List.length_map]
  suffices h : (rows.map (len ∘ fun input => input.row.json)).sum + rows.length ≤
      (rows.map InputRow.cost).sum by
    omega
  induction rows with
  | nil => simp
  | cons input rows ih =>
    obtain ⟨hrow, hrows⟩ := List.forall_mem_cons.mp hv
    have hle := len_row_le hf hrow
    have hrest := ih hrows
    simp only [List.map_cons, List.sum_cons, List.length_cons, Function.comp_apply, InputRow.cost]
    omega

omit hf in
theorem len_item_le (H : Digest) (r : WriteRequest F) (content : Bytes) :
    len (AppendItem.json ⟨r.table.text, r.requestId.text, toHex (H.hash content),
      r.rows.map InputRow.row, some r.nowUs⟩) ≤
        150 + len (rowsJson r.rows) + (len r.table.text + len r.requestId.text) * 6 := by
  have hclock := len_i64_le r.clock
  have htable := Json.len_string_le r.table.text
  have hid := Json.len_string_le r.requestId.text
  have hdigest := Json.len_string_toHex (H.hash content)
  rw [H.length_hash] at hdigest
  have k1 : len (Json.string "table".toList) = 7 := by decide
  have k2 : len (Json.string "request_id".toList) = 12 := by decide
  have k3 : len (Json.string "digest".toList) = 8 := by decide
  have k4 : len (Json.string "rows".toList) = 6 := by decide
  have k5 : len (Json.string "now_us".toList) = 8 := by decide
  have hrows : Json.array ((r.rows.map InputRow.row).map Row.json) = rowsJson r.rows := by
    rw [rowsJson, List.map_map]
    rfl
  rw [AppendItem.json, Json.len_object]
  simp only [Option.toList_some, List.map_cons, List.map_nil, List.cons_append, List.nil_append,
    List.sum_cons, List.sum_nil, List.length_cons, List.length_nil, k1, k2, k3, k4, k5, hrows]
  omega

omit [F64 F] hf in
theorem reserve_ok {w reserved : AdmittedWrite F} (hw : w.raw = none)
    (h : w.reserve s = .ok (.ok reserved, s')) :
    reserved = { w with raw := some ⟨w.rawBytes, false, false⟩ } := by
  rw [AdmittedWrite.reserve, hw] at h
  obtain ⟨⟨result, next⟩, hacquire, h⟩ := bind_ok.mp h
  obtain ⟨used, -, hacquire⟩ := bind_ok.mp hacquire
  obtain ⟨free, -, hacquire⟩ := bind_ok.mp hacquire
  split at hacquire
  · cases hacquire
    cases h
  · obtain ⟨total, -, hacquire⟩ := bind_ok.mp hacquire
    obtain ⟨working, -, hacquire⟩ := bind_ok.mp hacquire
    cases hacquire
    cases h
    rfl

theorem Prepared.bounds {H : Digest} {p : PreparedWrite F} (h : Prepared H p) :
    len p.item.json + 300 ≤ p.admissionBytes ∧
      ∃ r, p.raw = some r ∧ r.live = false ∧
        p.retainedBytes + max ((len p.item.json + 300) * 3) 4096 ≤ r.bytes := by
  obtain ⟨request, w, s, reserved, s', maxBatchRows, maxBatchBytes, hnew, hreserve, hprepare⟩ := h
  obtain ⟨bytes, hbytes, hnew⟩ := bind_ok.mp hnew
  obtain ⟨envelope, henvelope, hnew⟩ := bind_ok.mp hnew
  cases hnew
  cases reserve_ok rfl hreserve
  obtain ⟨-, hprepare⟩ := ensure_bind.mp hprepare
  obtain ⟨identity, hidentity, hprepare⟩ := bind_ok.mp hprepare
  obtain ⟨resident, -, hprepare⟩ := bind_ok.mp hprepare
  cases hprepare
  obtain ⟨-, hidentity⟩ := ensure_bind.mp hidentity
  cases hidentity
  obtain ⟨-, hvalid, hcharge⟩ := admissionBytes_ok hbytes
  have hcredit := allocationEnvelope_ok henvelope
  have hitem := len_item_le H request (utf8 (rowsJson request.rows))
  have hrows := len_rowsJson_le hf hvalid
  have htable := request.table.fits
  have hid := request.requestId.fits
  have hle := Nat.add_le_add_right hitem 300
  refine ⟨by dsimp only; omega, _, rfl, rfl, le_trans (Nat.add_le_add_left ?_ _) hcredit⟩
  exact max_le_max (Nat.mul_le_mul_right 3 (by dsimp only; omega)) le_rfl

variable {sequence : Nat} {ps : List (PreparedWrite F)} {H : Digest}

section
omit hf

theorem appendGroup_ok {items : List (AppendItem F)}
    (h : EncodedRecord.appendGroup H sequence items = .ok encoded) :
    items ≠ [] ∧ encoded.bytes = groupFrame H sequence items := by
  obtain ⟨⟨hne, -⟩, h⟩ := ensure_bind.mp h
  obtain ⟨bytes, hbytes, h⟩ := bind_ok.mp h
  cases h
  exact ⟨hne, encodePayload_ok hbytes⟩

theorem appendGroup_fits {items : List (AppendItem F)}
    (hne : items ≠ []) (hcount : items.length ≤ maxGroupRequests)
    (hlen : (groupFrame H sequence items).length ≤ maxFrameBytes) :
    EncodedRecord.appendGroup H sequence items =
      .ok ⟨sequence, groupFrame H sequence items, true⟩ := by
  rw [groupFrame, length_frame] at hlen
  rw [EncodedRecord.appendGroup, ensure_pos ⟨hne, hcount⟩, ok_bind]
  dsimp only
  rw [encodePayload_fits hlen]
  rfl

theorem len_group_le (H : Digest) (hs : sequence ≤ u64Max)
    (items : List (AppendItem F)) :
    (groupFrame H sequence items).length ≤
      200 + (items.map fun item => len item.json + 1).sum := by
  have hsequence : len (Json.nat sequence) ≤ 20 := by
    refine Json.len_nat_le (by decide) ?_
    unfold u64Max at hs
    omega
  have hversion : len (Json.nat formatVersion) = 1 := by decide
  have k1 : len (Json.string "format_version".toList) = 16 := by decide
  have k2 : len (Json.string "sequence".toList) = 10 := by decide
  have k3 : len (Json.string "operation".toList) = 11 := by decide
  have k4 : len (Json.string "append_group".toList) = 14 := by decide
  have k5 : len (Json.string "items".toList) = 7 := by decide
  have hsum : (items.map fun item => len item.json + 1).sum =
      ((items.map AppendItem.json).map len).sum + items.length := by
    rw [List.sum_map_add, List.map_map]
    simp [Function.comp_def]
  rw [groupFrame, length_frame, Text.length_utf8, Record.jsonWith, Json.len_object, hsum]
  simp only [List.map_cons, List.map_nil, List.sum_cons, List.sum_nil, List.length_cons,
    List.length_nil, BorrowedOperation.json, tagged, Json.len_object, Json.len_array,
    List.length_map, k1, k2, k3, k4, k5]
  omega

theorem frame_within (H : Digest) (hs : sequence ≤ u64Max)
    (hne : ps ≠ []) :
    (groupFrame H sequence (ps.map PreparedWrite.item)).length ≤
      (ps.map fun p => len p.item.json + 300).sum := by
  refine (len_group_le H hs _).trans ?_
  obtain ⟨p, rest, rfl⟩ := List.exists_cons_of_ne_nil hne
  rw [List.map_map]
  have hrest : (rest.map ((fun item => len (AppendItem.json item) + 1) ∘ PreparedWrite.item)).sum ≤
      (rest.map fun p => len p.item.json + 300).sum :=
    List.sum_le_sum fun q _ => by simp
  simp only [List.map_cons, List.sum_cons, Function.comp_apply]
  omega

end

theorem charge_dominates
    (hp : ∀ p ∈ ps, Prepared H p) (hs : sequence ≤ u64Max) (hne : ps ≠ []) :
    (groupFrame H sequence (ps.map PreparedWrite.item)).length ≤
      (ps.map PreparedWrite.admissionBytes).sum :=
  (frame_within H hs hne).trans (List.sum_le_sum fun p hmem => ((hp p hmem).bounds hf).1)

theorem detach_all (hp : ∀ p ∈ ps, Prepared H p) :
    ∃ credits, ps.mapM PreparedWrite.detachFrameCredit = .ok credits ∧
      (ps.map fun p => max ((len p.item.json + 300) * 3) 4096).sum ≤
        (credits.map fun c => c.1.bytes).sum := by
  induction ps with
  | nil => exact ⟨[], rfl, le_rfl⟩
  | cons p ps ih =>
    obtain ⟨hfirst, hrest⟩ := List.forall_mem_cons.mp hp
    obtain ⟨-, r, hraw, hlive, hbytes⟩ := hfirst.bounds hf
    obtain ⟨credits, hcredits, hsum⟩ := ih hrest
    have hdetach : p.detachFrameCredit = .ok ({ r with bytes := r.bytes - p.retainedBytes },
        { p with raw := some ⟨p.retainedBytes, r.working, false⟩ }) := by
      rw [PreparedWrite.detachFrameCredit, hraw]
      dsimp only
      rw [ensure_pos ⟨hlive, by omega⟩, ok_bind]
    refine ⟨_, by rw [List.mapM_cons, hdetach, ok_bind, hcredits]; rfl, ?_⟩
    simp only [List.map_cons, List.sum_cons]
    omega

theorem credits_dominate
    (hp : ∀ p ∈ ps, Prepared H p) (hs : sequence ≤ u64Max) (hne : ps ≠ [])
    {pieces : List Bytes}
    (hpieces : 48 + pieces.flatten.length =
      (groupFrame H sequence (ps.map PreparedWrite.item)).length) :
    ∃ credits, ps.mapM PreparedWrite.detachFrameCredit = .ok credits ∧
      framePeak maxFrameBytes pieces ≤ (credits.map fun c => c.1.bytes).sum := by
  obtain ⟨credits, hcredits, hsum⟩ := detach_all hf hp
  refine ⟨credits, hcredits, le_trans ?_ hsum⟩
  have hle := frame_within H hs hne
  rw [← hpieces] at hle
  have hmin : min maxFrameBytes 4096 = 4096 := by decide
  have hpeak : framePeak maxFrameBytes pieces ≤ max 4096 (3 * (48 + pieces.flatten.length)) := by
    rw [framePeak, hmin]
    refine Growth.peak_le (by decide) ?_
    rw [List.length_flatten]
    simp only [List.sum_cons, List.sum_append, List.sum_nil]
    omega
  refine hpeak.trans (max_le ?_ ?_)
  · obtain ⟨p, rest, rfl⟩ := List.exists_cons_of_ne_nil hne
    rw [List.map_cons, List.sum_cons]
    exact (le_max_right _ _).trans (Nat.le_add_right _ _)
  · calc 3 * (48 + pieces.flatten.length)
        ≤ 3 * (ps.map fun p => len p.item.json + 300).sum := Nat.mul_le_mul_left 3 hle
      _ = (ps.map fun p => (len p.item.json + 300) * 3).sum := by
          rw [List.sum_map_mul_right, Nat.mul_comm]
      _ ≤ _ := List.sum_le_sum fun p _ => le_max_left _ _

end

end Varve.Wal
