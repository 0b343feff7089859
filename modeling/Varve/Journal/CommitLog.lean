import Varve.Journal.Durability

/-!
# The commit log

`commit_log.rs` in segmented mode: the journal's limits derived from the engine's budget, the
engine's admission test for the next record, the append, the seal of a ship and the reclamation
that remote-upload pins hold back.
-/

namespace Varve.CommitLog

open Journal (JournalConfig Io Digest frameSize reservedSealBytes headerBytes)
open Result (ensure ensure_bind)

/-- The fields of the engine's configuration that the commit log reads. -/
structure Config where
  walMaxBytes : Nat
  maxBatchBytes : Nat
  maxDiskBytes : Nat
deriving DecidableEq, Repr

def config (c : Config) : Except String JournalConfig := do
  let frame := min (c.walMaxBytes - 128) (16 * 1024 * 1024)
  ensure (137 ≤ frame) "WAL budget cannot contain a journal record"
  let segment := frame + 128
  let segments := min ((c.walMaxBytes + segment - 1) / segment + 64) 65536
  let limits : JournalConfig :=
    { maxTotalBytes := c.walMaxBytes
      segmentBytes := segment
      maxSegments := segments
      maxFrameBytes := frame
      maxRecordBytes := min (frame - 136) (c.maxBatchBytes + 64 * 1024)
      maxRecordsPerGroup := 1 }
  limits.validate
  .ok limits

/-- An encoded WAL record: its bytes, which the journal does not look into, and
the sequence they carry. -/
structure EncodedRecord where
  sequence : Nat
  bytes : Bytes
deriving DecidableEq, Repr

def requiredBytes (j : Journal) (encoded : EncodedRecord) : Except String Nat := do
  let bytes ← j.requiredAppendBytes [encoded.bytes]
  ensure (bytes + reservedSealBytes < 2 ^ 64) "journal admission overflow"
  .ok (bytes + reservedSealBytes)

structure State where
  config : Config
  journal : Journal
  walBytes : Nat
  /-- The checkpoint of the durable root. -/
  checkpointSequence : Nat
  /-- The remote-upload pins on journal objects. -/
  journalPins : Nat
  fenced : Bool
deriving DecidableEq, Repr

/-- `ensure_budget` over a directory that holds `used` bytes. -/
def ensureBudget (c : Config) (used additional : Nat) : Except String Unit :=
  ensure (used + additional + reservedSealBytes ≤ c.maxDiskBytes)
    "local disk admission budget exhausted; compact, archive, or increase max_disk_bytes"

section
variable (H : Digest)

/-- The append once it has passed its outer checks: the I/O, the journal it
leaves and the growth on disk. -/
def publish (s : State) (encoded : EncodedRecord) : Except String (List Io × Journal × Nat) := do
  let (ops, j, receipt) ← s.journal.appendGroup H [encoded.bytes]
  ensure (receipt.first = encoded.sequence ∧ receipt.last = encoded.sequence)
    "journal receipt sequence mismatch"
  ensure (s.journal.diskBytes ≤ j.diskBytes) "journal append reduced disk extent"
  .ok (ops, j, j.diskBytes - s.journal.diskBytes)

/-- Outer errors are pre-I/O admission failures; inner errors fence publication. -/
def append (s : State) (used : Nat) (encoded : EncodedRecord) :
    Except String (Except String (List Io × Journal × Nat)) := do
  let growth ← s.journal.requiredAppendBytes [encoded.bytes]
  ensure (s.journal.durableSequence + 1 < 2 ^ 64) "journal sequence exhausted"
  ensure (encoded.sequence = s.journal.durableSequence + 1)
    "journal/WAL publication sequence mismatch"
  ensureBudget s.config used growth
  .ok (publish H s encoded)

/-- The reclamation after a checkpoint; pinned journal objects hold it back. -/
def reclaim (s : State) (frontier : Nat) : Except String (List Io × State) := do
  let reclaimed := if s.journalPins = 0 then s.journal.reclaimThrough H frontier
    else .ok ([], s.journal)
  let (ops, j) ← reclaimed
  .ok (ops, { s with journal := j, walBytes := j.diskBytes })

end

def Admits (s : State) (encoded : EncodedRecord) : Prop :=
  encoded.sequence = s.journal.durableSequence + 1 ∧
    ∃ bytes, requiredBytes s.journal encoded = .ok bytes ∧
      s.walBytes + bytes ≤ s.config.walMaxBytes

inductive Action where
  | append (used : Nat) (encoded : EncodedRecord)
  | ship
  | unpin
  | checkpoint (checkpointSequence : Nat)
  | reclaim
deriving DecidableEq, Repr

/-- The operations of the engine on its commit log, one at a time under the
commit owner. -/
inductive Step (H : Digest) : State → Action → State → Prop where
  | append (hf : s.fenced = false) (ha : Admits s encoded)
      (h : append H s used encoded = .ok (.ok (ops, j, growth))) :
      Step H s (.append used encoded) { s with journal := j, walBytes := s.walBytes + growth }
  | fence (hf : s.fenced = false) (ha : Admits s encoded)
      (h : append H s used encoded = .ok (.error e)) :
      Step H s (.append used encoded) { s with fenced := true }
  /-- A ship seals the active segment and pins what it uploads. -/
  | ship (hf : s.fenced = false) (h : s.journal.sealSnapshot H = (ops, j, snapshot)) :
      Step H s .ship
        { s with journal := j, walBytes := j.diskBytes, journalPins := s.journalPins + 1 }
  | unpin : Step H s .unpin { s with journalPins := s.journalPins - 1 }
  | checkpoint (hr : s.checkpointSequence ≤ c) (hd : c ≤ s.journal.durableSequence) :
      Step H s (.checkpoint c) { s with checkpointSequence := c }
  | reclaim (hf : s.fenced = false) (h : reclaim H s s.checkpointSequence = .ok (ops, s')) :
      Step H s .reclaim s'

/-- The engine opens its journal on whatever the directory holds. -/
def machine (H : Digest) : Machine State Action where
  init s := ∃ limits listing ops, config s.config = .ok limits ∧
    Journal.openWithCheckpoint H limits s.checkpointSequence listing = .ok (ops, s.journal) ∧
    s.walBytes = s.journal.diskBytes ∧ s.journalPins = 0 ∧ s.fenced = false
  step := Step H

-- Accounting

/-- The part of a journal that sealing and reclaiming leave alone. -/
structure SameFrontier (j j' : Journal) : Prop where
  config : j'.config = j.config
  next : j'.nextSequence = j.nextSequence
  durable : j'.durableSequence = j.durableSequence

variable {H : Digest} {j j' : Journal} {s s' : State} {encoded : EncodedRecord}

theorem sameFrontier_sealActive : SameFrontier j (j.sealActive H).2 := by
  unfold Journal.sealActive
  split <;> exact ⟨rfl, rfl, rfl⟩

theorem sameFrontier_reclaimThrough (h : j.reclaimThrough H c = .ok (ops, j')) :
    SameFrontier j j' := by
  by_cases hcond : j.covered c = 0 ∨ c = 0 ∧ j.covered c < j.segments.length
  · simp only [Journal.reclaimThrough, ensure_bind] at h
    obtain ⟨-, -, h⟩ := h
    split at h
    · cases h
      exact ⟨rfl, rfl, rfl⟩
    · exact absurd hcond ‹_›
  · obtain ⟨ops₁, j₁, hj₁, -, rfl⟩ := Journal.reclaimThrough_ok h hcond
    have hsame : SameFrontier j j₁ := by
      split at hj₁
      · have := congrArg Prod.snd hj₁
        simp only at this
        rw [this]
        exact sameFrontier_sealActive
      · cases hj₁
        exact ⟨rfl, rfl, rfl⟩
    exact ⟨hsame.config, hsame.next, hsame.durable⟩

theorem appendGroup_frontier (h : j.appendGroup H records = .ok (ops, j', receipt)) :
    j'.config = j.config ∧ j'.nextSequence = j.nextSequence + records.length ∧
      j'.durableSequence = j.nextSequence + records.length - 1 ∧ j.diskBytes ≤ j'.diskBytes ∧
      receipt = ⟨j.nextSequence, j.nextSequence + records.length - 1⟩ := by
  obtain ⟨plan, hplan, h⟩ := Result.bind_ok.mp h
  obtain ⟨-, rfl⟩ := Journal.appendPlan_ok.mp hplan
  have hbytes : j.diskBytes ≤ (j.sealActive H).2.diskBytes := by
    unfold Journal.sealActive
    split
    · exact Nat.le_refl _
    · exact Nat.le_add_right _ _
  cases hr : j.mustRotate (frameSize records) with
  | false =>
    simp only [Journal.planned, hr, Bool.false_eq_true, if_false] at h
    cases h
    exact ⟨rfl, rfl, rfl, Nat.le_add_right _ _, rfl⟩
  | true =>
    simp only [Journal.planned, hr, if_true] at h
    cases h
    refine ⟨sameFrontier_sealActive.config, rfl, rfl, ?_, rfl⟩
    exact hbytes.trans ((Nat.le_add_right _ _).trans (Nat.le_add_right _ _))

theorem openWithCheckpoint_frontier {limits : JournalConfig}
    (h : Journal.openWithCheckpoint H limits c listing = .ok (ops, j)) :
    j.config = limits ∧ j.nextSequence = j.durableSequence + 1 := by
  obtain ⟨-, -, h⟩ := Result.bind_ok.mp h
  obtain ⟨-, -, h⟩ := Result.bind_ok.mp h
  obtain ⟨total, -, h⟩ := Result.bind_ok.mp h
  obtain ⟨recovered, -, h⟩ := Result.bind_ok.mp h
  obtain ⟨-, -, h⟩ := Result.bind_ok.mp h
  obtain ⟨⟨ops', j'⟩, hrepair, h⟩ := Result.bind_ok.mp h
  cases h
  have hsame : SameFrontier (Journal.found limits c total recovered) j := by
    unfold Journal.repair at hrepair
    split at hrepair
    · split at hrepair
      · cases hrepair
        exact ⟨rfl, rfl, rfl⟩
      · simp only [Journal.repairLast, ensure_bind] at hrepair
        obtain ⟨-, -, hrepair⟩ := hrepair
        cases hrepair
        exact ⟨rfl, rfl, rfl⟩
    · cases hrepair
      exact ⟨rfl, rfl, rfl⟩
  refine ⟨hsame.config, ?_⟩
  rw [hsame.next, hsame.durable]
  have hpos : 0 < (Journal.found limits c total recovered).nextSequence := by
    simp only [Journal.found]
    cases recovered.last <;> simp
  exact (Nat.sub_add_cancel hpos).symm

structure Inv (s : State) : Prop where
  limits : config s.config = .ok s.journal.config
  bytes : s.walBytes = s.journal.diskBytes
  sequence : s.journal.nextSequence = s.journal.durableSequence + 1

theorem Inv.frontier (h : Inv s) (hj : SameFrontier s.journal j) (hb : s'.walBytes = j.diskBytes)
    (hs : s'.config = s.config ∧ s'.journal = j) : Inv s' := by
  obtain ⟨hconfig, rfl⟩ := hs
  refine ⟨?_, hb, ?_⟩
  · rw [hconfig, hj.config]
    exact h.limits
  · rw [hj.next, hj.durable]
    exact h.sequence

/-- Whether the host's disk budget admits the growth. -/
def Budgeted (s : State) (used : Nat) (encoded : EncodedRecord) : Prop :=
  used + (s.journal.planned [encoded.bytes]).growth + reservedSealBytes ≤ s.config.maxDiskBytes

theorem append_ok {r : Except String (List Io × Journal × Nat)} :
    append H s used encoded = .ok r ↔
      s.journal.Admitted [encoded.bytes] false ∧ s.journal.durableSequence + 1 < 2 ^ 64 ∧
        encoded.sequence = s.journal.durableSequence + 1 ∧ Budgeted s used encoded ∧
        publish H s encoded = r := by
  have hrequired (growth : Nat) : s.journal.requiredAppendBytes [encoded.bytes] = .ok growth ↔
      s.journal.Admitted [encoded.bytes] false ∧
        (s.journal.planned [encoded.bytes]).growth = growth := by
    rw [Journal.requiredAppendBytes, Result.bind_ok]
    constructor
    · rintro ⟨plan, hplan, hgrowth⟩
      obtain ⟨hadm, rfl⟩ := Journal.appendPlan_ok.mp hplan
      exact ⟨hadm, Except.ok.inj hgrowth⟩
    · rintro ⟨hadm, rfl⟩
      exact ⟨_, Journal.appendPlan_ok.mpr ⟨hadm, rfl⟩, rfl⟩
  rw [append, Result.bind_ok]
  simp only [ensureBudget, ensure_bind, hrequired]
  constructor
  · rintro ⟨_, ⟨hadm, rfl⟩, hdurable, hsequence, hbudget, hr⟩
    exact ⟨hadm, hdurable, hsequence, hbudget, Except.ok.inj hr⟩
  · rintro ⟨hadm, hdurable, hsequence, hbudget, hr⟩
    exact ⟨_, ⟨hadm, rfl⟩, hdurable, hsequence, hbudget, congrArg Except.ok hr⟩

theorem publish_ok (h : publish H s encoded = .ok (ops, j, growth)) :
    ∃ receipt, s.journal.appendGroup H [encoded.bytes] = .ok (ops, j, receipt) ∧
      growth = j.diskBytes - s.journal.diskBytes := by
  obtain ⟨⟨ops', j', receipt⟩, hgroup, h⟩ := Result.bind_ok.mp h
  simp only [ensure_bind] at h
  obtain ⟨-, -, h⟩ := h
  cases h
  exact ⟨receipt, hgroup, rfl⟩

theorem inv_step (h : Inv s) (hs : Step H s a s') : Inv s' := by
  cases hs with
  | append hf ha happend =>
    obtain ⟨receipt, hgroup, rfl⟩ := publish_ok (append_ok.mp happend).2.2.2.2
    obtain ⟨hconfig, hnext, hdurable, hbytes, -⟩ := appendGroup_frontier hgroup
    have hsequence := h.sequence
    refine ⟨?_, ?_, ?_⟩ <;> dsimp only
    · rw [hconfig]
      exact h.limits
    · rw [h.bytes]
      omega
    · omega
  | fence => exact ⟨h.limits, h.bytes, h.sequence⟩
  | ship hf hseal =>
    have hsame := sameFrontier_sealActive (H := H) (j := s.journal)
    have hj := congrArg (fun r => r.2.1) hseal
    simp only [Journal.sealSnapshot] at hj
    rw [hj] at hsame
    exact h.frontier hsame rfl ⟨rfl, rfl⟩
  | unpin => exact ⟨h.limits, h.bytes, h.sequence⟩
  | checkpoint => exact ⟨h.limits, h.bytes, h.sequence⟩
  | reclaim hf hreclaim =>
    obtain ⟨⟨ops, j⟩, hj, hreclaim⟩ := Result.bind_ok.mp hreclaim
    cases hreclaim
    have hsame : SameFrontier s.journal j := by
      split at hj
      · exact sameFrontier_reclaimThrough hj
      · cases hj
        exact ⟨rfl, rfl, rfl⟩
    exact h.frontier hsame rfl ⟨rfl, rfl⟩

theorem inv_of_reachable (hr : (machine H).Reachable s) : Inv s := by
  refine hr.invariant ?_ fun _ _ _ h hs => inv_step h hs
  rintro s ⟨limits, listing, ops, hlimits, hopen, hbytes, -, -⟩
  obtain ⟨rfl, hsequence⟩ := openWithCheckpoint_frontier hopen
  exact ⟨hlimits, hbytes, hsequence⟩

-- Admission

/-- There is room for the segment that the append may have to create. -/
def HasSegment (j : Journal) (encoded : EncodedRecord) : Prop :=
  j.mustRotate (frameSize [encoded.bytes]) = true → j.segments.length < j.config.maxSegments

/-- The append returns an inner error, before any I/O. -/
def Fences (H : Digest) (s : State) (used : Nat) (encoded : EncodedRecord) : Prop :=
  ∃ e, append H s used encoded = .ok (.error e)

def Performs (H : Digest) (s : State) (used : Nat) (encoded : EncodedRecord) : Prop :=
  ∃ performed, append H s used encoded = .ok (.ok performed)

theorem limits_maxTotalBytes {c : Config} (h : config c = .ok limits) :
    limits.maxTotalBytes = c.walMaxBytes := by
  simp only [config, ensure_bind] at h
  obtain ⟨-, h⟩ := h
  obtain ⟨-, -, h⟩ := Result.bind_ok.mp h
  cases h
  rfl

/-- A record that passes the engine's test passes every check of the journal
but the one on the number of segments. -/
theorem Inv.admitted_iff (h : Inv s) (ha : Admits s encoded) :
    s.journal.Admitted [encoded.bytes] true ↔ HasSegment s.journal encoded := by
  obtain ⟨-, bytes, hrequired, hbytes⟩ := ha
  obtain ⟨growth, hgrowth, hrequired⟩ := Result.bind_ok.mp hrequired
  obtain ⟨plan, hplan, hgrowth⟩ := Result.bind_ok.mp hgrowth
  obtain ⟨hadm, rfl⟩ := Journal.appendPlan_ok.mp hplan
  cases hgrowth
  simp only [ensure_bind] at hrequired
  obtain ⟨-, hrequired⟩ := hrequired
  cases hrequired
  constructor
  · intro h
    exact h.count rfl
  · intro hsegment
    refine ⟨hadm.group, hadm.next, hadm.ids, fun _ => hsegment, fun _ => ?_⟩
    have hreserve : reservedSealBytes ≤ s.journal.reserve
        (s.journal.mustRotate (frameSize [encoded.bytes])) := by
      unfold Journal.reserve
      split <;> omega
    rw [limits_maxTotalBytes h.limits, ← h.bytes]
    simp only [Journal.planned] at hbytes
    omega

theorem publish_performs_iff (h : Inv s) (hs : encoded.sequence = s.journal.durableSequence + 1) :
    (∃ performed, publish H s encoded = .ok performed) ↔
      s.journal.Admitted [encoded.bytes] true := by
  constructor
  · rintro ⟨⟨ops, j, growth⟩, hp⟩
    obtain ⟨receipt, hgroup, -⟩ := publish_ok hp
    obtain ⟨plan, hplan, -⟩ := Result.bind_ok.mp hgroup
    exact (Journal.appendPlan_ok.mp hplan).1
  · intro hadm
    have hgroup : ∃ performed, s.journal.appendGroup H [encoded.bytes] = .ok performed := by
      rw [Journal.appendGroup, Journal.appendPlan_ok.mpr ⟨hadm, rfl⟩, Result.ok_bind]
      exact ⟨_, rfl⟩
    obtain ⟨⟨ops, j, receipt⟩, hgroup⟩ := hgroup
    obtain ⟨-, -, -, hbytes, rfl⟩ := appendGroup_frontier hgroup
    have hreceipt : s.journal.nextSequence = encoded.sequence ∧
        s.journal.nextSequence + [encoded.bytes].length - 1 = encoded.sequence := by
      rw [hs, h.sequence]
      exact ⟨rfl, rfl⟩
    refine ⟨(ops, j, j.diskBytes - s.journal.diskBytes), ?_⟩
    rw [publish, hgroup, Result.ok_bind]
    dsimp only
    rw [Result.ensure_pos hreceipt, Result.ok_bind, Result.ensure_pos hbytes, Result.ok_bind]

theorem Admits.admitted (ha : Admits s encoded) : s.journal.Admitted [encoded.bytes] false := by
  obtain ⟨-, bytes, hrequired, -⟩ := ha
  obtain ⟨growth, hgrowth, -⟩ := Result.bind_ok.mp hrequired
  obtain ⟨plan, hplan, -⟩ := Result.bind_ok.mp hgrowth
  exact (Journal.appendPlan_ok.mp hplan).1

theorem Inv.append_ok_iff (h : Inv s) (ha : Admits s encoded)
    {r : Except String (List Io × Journal × Nat)} :
    append H s used encoded = .ok r ↔ Budgeted s used encoded ∧ publish H s encoded = r := by
  have hnext : s.journal.durableSequence + 1 < 2 ^ 64 := by
    have := ha.admitted.next
    have := h.sequence
    omega
  rw [append_ok]
  constructor
  · rintro ⟨-, -, -, hbudget, hr⟩
    exact ⟨hbudget, hr⟩
  · rintro ⟨hbudget, hr⟩
    exact ⟨ha.admitted, hnext, ha.1, hbudget, hr⟩

/-- A record that passes the admission test is appended exactly if the disk budget and the space for
its segment admit it. -/
theorem append_performs_iff (hr : (machine H).Reachable s) (ha : Admits s encoded) :
    (Performs H s used encoded ↔ Budgeted s used encoded ∧ HasSegment s.journal encoded) ∧
      (¬Fences H s used encoded ↔ (Budgeted s used encoded → HasSegment s.journal encoded)) := by
  have h := inv_of_reachable hr
  have hpublish := (publish_performs_iff (H := H) h ha.1).trans (h.admitted_iff ha)
  simp only [Performs, Fences, h.append_ok_iff ha, exists_and_left, not_and]
  refine ⟨and_congr_right fun _ => hpublish, forall_congr' fun _ => ?_⟩
  rw [← hpublish]
  cases publish H s encoded <;> simp

def smallConfig : Config := ⟨65536, 65536, 1000000⟩

def smallLimits : JournalConfig := ⟨65536, 65536, 65, 65408, 65272, 1⟩

def record (sequence : Nat) : EncodedRecord := ⟨sequence, List.replicate 200 0⟩

def created (H : Digest) : State :=
  ⟨smallConfig, Journal.reopened H smallLimits 0 0 ⟨[], none⟩, 0, 0, 0, false⟩

theorem config_small : config smallConfig = .ok smallLimits := by decide +kernel

theorem reachable_created : (machine H).Reachable (created H) := by
  have hopen : Journal.openWithCheckpoint H smallLimits 0 [] =
      .ok ([.syncDir], Journal.reopened H smallLimits 0 0 ⟨[], none⟩) := by
    have hv : smallLimits.validate = .ok () := by decide +kernel
    exact Journal.openWithCheckpoint_sealed hv (by decide) Journal.stored_empty.toOk (.refl _)
  exact .init ⟨smallLimits, [], _, config_small, hopen, rfl, rfl, rfl⟩

/-- A journal with `n` sealed segments of one record each. -/
structure Cycled (n : Nat) (s : State) : Prop where
  config : s.config = smallConfig
  limits : s.journal.config = smallLimits
  active : s.journal.active = none
  segments : s.journal.segments.length = n
  next : s.journal.nextSequence = n + 1
  durable : s.journal.durableSequence = n
  ids : s.journal.nextSegmentId = n + 1
  disk : s.journal.diskBytes = 464 * n
  bytes : s.walBytes = 464 * n
  fenced : s.fenced = false

theorem cycled_created : Cycled 0 (created H) := ⟨rfl, rfl, rfl, rfl, rfl, rfl, rfl, rfl, rfl, rfl⟩

theorem groupOk_record : Journal.GroupOk smallLimits [(record n).bytes] := by
  have hlen : (record n).bytes.length = 200 := List.length_replicate
  refine ⟨by simp, by simp [smallLimits], ?_, ?_⟩
  · intro r hr
    rw [List.mem_singleton.mp hr, hlen]
    decide
  · simp [frameSize, hlen, headerBytes, Journal.trailerBytes, smallLimits]

theorem frameSize_record : frameSize [(record n).bytes] = 336 := by
  have hlen : (record n).bytes.length = 200 := List.length_replicate
  simp [frameSize, hlen, headerBytes, Journal.trailerBytes]

theorem Cycled.mustRotate (h : Cycled n s) : s.journal.mustRotate size = true := by
  simp [Journal.mustRotate, h.active]

theorem Cycled.admitted (h : Cycled n s) (hn : n ≤ 65) :
    s.journal.Admitted [(record (n + 1)).bytes] false := by
  refine ⟨h.limits ▸ groupOk_record, ?_, fun _ => ?_, by simp, by simp⟩
  · rw [h.next, List.length_singleton]
    omega
  · rw [h.ids]
    omega

theorem Cycled.growth (h : Cycled n s) :
    (s.journal.planned [(record (n + 1)).bytes]).growth = 400 := by
  simp only [Journal.planned, frameSize_record, h.mustRotate, Journal.reserve, h.active]
  rfl

theorem Cycled.admits (h : Cycled n s) (hn : n ≤ 65) : Admits s (record (n + 1)) := by
  have hplan := Journal.appendPlan_ok.mpr ⟨h.admitted hn, rfl⟩
  refine ⟨by rw [h.durable]; rfl, 464, ?_, ?_⟩
  · rw [requiredBytes, Journal.requiredAppendBytes, hplan, Result.ok_bind, h.growth]
    rfl
  · rw [h.bytes, h.config]
    simp only [smallConfig]
    omega

theorem Cycled.budgeted (h : Cycled n s) (hn : n ≤ 65) : Budgeted s (464 * n) (record (n + 1)) := by
  rw [Budgeted, h.growth, h.config]
  simp only [reservedSealBytes, smallConfig]
  omega

theorem append_performs_created : (machine Journal.blake3).Reachable (created Journal.blake3) ∧
    Admits (created Journal.blake3) (record 1) ∧
    Performs Journal.blake3 (created Journal.blake3) 0 (record 1) := by
  have ha : Admits (created Journal.blake3) (record 1) := cycled_created.admits (by decide)
  exact ⟨reachable_created, ha, (append_performs_iff reachable_created ha).1.mpr
    ⟨cycled_created.budgeted (by decide), fun _ => by decide⟩⟩

theorem appendGroup_sealActive (hj : j.active = none) (ha : j.Admitted records true) :
    ∃ ops j₁ receipt, j.appendGroup H records = .ok (ops, j₁, receipt) ∧
      (j₁.sealActive H).2.active = none ∧
      (j₁.sealActive H).2.segments.length = j.segments.length + 1 ∧
      (j₁.sealActive H).2.nextSegmentId = j.nextSegmentId + 1 ∧
      (j₁.sealActive H).2.diskBytes =
        j.diskBytes + headerBytes + frameSize records + reservedSealBytes := by
  have hrotate : j.mustRotate (frameSize records) = true := by simp [Journal.mustRotate, hj]
  obtain ⟨ops, receipt, hgroup⟩ : ∃ ops receipt, j.appendGroup H records =
      .ok (ops, ((j.rotate H).2.writeFrame (Journal.frame H j.nextSequence records)
        (j.nextSequence + records.length)).2, receipt) := by
    rw [Journal.appendGroup, Journal.appendPlan_ok.mpr ⟨ha, rfl⟩, Result.ok_bind]
    simp only [Journal.planned, hrotate, if_true]
    exact ⟨_, _, rfl⟩
  refine ⟨ops, _, receipt, hgroup, ?_⟩
  simp only [Journal.rotate, hj, Journal.writeFrame, Option.map_some, Journal.setLast_concat,
    Journal.sealActive, List.length_append, List.length_singleton, Journal.length_frame, and_self]

theorem Cycled.cycle (hr : (machine H).Reachable s) (h : Cycled n s) (hn : n < 65) :
    ∃ s', (machine H).Reachable s' ∧ Cycled (n + 1) s' := by
  have hinv := inv_of_reachable hr
  have ha := h.admits (by omega)
  have hadm : s.journal.Admitted [(record (n + 1)).bytes] true :=
    (hinv.admitted_iff ha).mpr fun _ => by rw [h.segments, h.limits]; exact hn
  obtain ⟨ops, j₁, receipt, hgroup, hactive, hsegments, hids, hdisk⟩ :=
    appendGroup_sealActive (H := H) h.active hadm
  obtain ⟨⟨ops', j', growth⟩, hpublish⟩ := (publish_performs_iff (H := H) hinv ha.1).mpr hadm
  obtain ⟨receipt', hgroup', -⟩ := publish_ok hpublish
  obtain ⟨rfl, hj⟩ := Prod.mk.inj (Except.ok.inj (hgroup.symm.trans hgroup'))
  obtain ⟨rfl, -⟩ := Prod.mk.inj hj
  have happend : append H s (464 * n) (record (n + 1)) = .ok (.ok (ops, j₁, growth)) :=
    (hinv.append_ok_iff ha).mpr ⟨h.budgeted (by omega), hpublish⟩
  have hs : Step H s _ _ := .append h.fenced ha happend
  have hseal : j₁.sealSnapshot H = ((j₁.sealActive H).1, (j₁.sealActive H).2,
      Journal.descriptors j₁.active.isSome j₁.segments) := rfl
  have hship : Step H { s with journal := j₁, walBytes := s.walBytes + growth } .ship _ :=
    .ship h.fenced hseal
  obtain ⟨hconfig, hnext, hdurable, -, -⟩ := appendGroup_frontier hgroup
  have hsame := sameFrontier_sealActive (H := H) (j := j₁)
  rw [frameSize_record, h.disk] at hdisk
  refine ⟨_, (hr.step hs).step hship, ?_⟩
  constructor <;> dsimp only
  · exact h.config
  · rw [hsame.config, hconfig, h.limits]
  · exact hactive
  · rw [hsegments, h.segments]
  · rw [hsame.next, hnext, h.next]
    rfl
  · rw [hsame.durable, hdurable, h.next]
    rfl
  · rw [hids, h.ids]
  · exact hdisk
  · exact hdisk
  · exact h.fenced

theorem reachable_cycled (hn : n ≤ 65) : ∃ s, (machine H).Reachable s ∧ Cycled n s := by
  induction n with
  | zero => exact ⟨created H, reachable_created, cycled_created⟩
  | succ n ih =>
    obtain ⟨s, hr, hs⟩ := ih (by omega)
    exact hs.cycle hr (by omega)

theorem appendPlan_full (h : j.Admitted records false)
    (hr : j.mustRotate (frameSize records) = true)
    (hfull : ¬j.segments.length < j.config.maxSegments) :
    j.appendPlan records true = .error "segment count admission exceeded" := by
  have hcount : ¬(True → j.mustRotate (frameSize records) = true →
      j.segments.length < j.config.maxSegments) := fun hcount => hfull (hcount trivial hr)
  simp only [Journal.appendPlan, Result.ensure_pos (And.intro h.group.nonempty h.group.count),
    Result.ensure_pos h.group.record, Result.ensure_pos h.group.size, Result.ensure_pos h.next,
    Result.ensure_pos h.ids, Result.ok_bind, Result.ensure_neg hcount, Result.error_bind]

/-- After 65 appends, each shipped, the 66th passes the engine's test and
fences. -/
theorem append_fences_cycled : ∃ s, (machine Journal.blake3).Reachable s ∧
    Admits s (record 66) ∧ s.walBytes = 30160 ∧
    append Journal.blake3 s 30160 (record 66) =
      .ok (.error "segment count admission exceeded") := by
  obtain ⟨s, hr, h⟩ := reachable_cycled (H := Journal.blake3) (n := 65) (by decide)
  have ha := h.admits (by decide)
  refine ⟨s, hr, ha, h.bytes, ?_⟩
  refine ((inv_of_reachable hr).append_ok_iff ha).mpr ⟨h.budgeted (by decide), ?_⟩
  have hfull : ¬s.journal.segments.length < s.journal.config.maxSegments := by
    rw [h.segments, h.limits]
    decide
  have hplan := appendPlan_full (h.admitted (by decide)) h.mustRotate hfull
  rw [publish, Journal.appendGroup, hplan]
  rfl

end Varve.CommitLog
