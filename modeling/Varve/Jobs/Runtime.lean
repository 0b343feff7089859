import Varve.Lib.JsonFront
import Varve.Engine.Catalog

/-!
# The runtime journal of the jobs

What a database keeps of a job beside its definition, the checks on it, and the file
`job-runtime.bin` it is written to after every start and every completion.
-/

namespace Varve.Jobs

open Result (ensure ensure_bind bind_ok forM_ok)
open Text (len utf8)
open Journal (Digest)
open Engine

structure JobRuntime where
  generation : Nat
  nextRunUs : Option Int
  running : Bool
  attempts : Nat
  latestRun : Option JobRun
deriving DecidableEq

def JobRuntime.json (r : JobRuntime) : Text :=
  Json.object [("generation".toList, Json.nat r.generation),
    ("next_run_us".toList, Json.option Json.int r.nextRunUs),
    ("running".toList, Json.bool r.running), ("attempts".toList, Json.nat r.attempts),
    ("latest_run".toList, Json.option JobRun.json r.latestRun)]

def JobRuntime.fromDefinition (job : JobDefinition) : JobRuntime where
  generation := job.updatedSequence
  nextRunUs := job.nextRunUs
  running := job.running
  attempts := job.attempts
  latestRun := job.latestRun

/-- The check of the journal and the check before a write, which differ in what they say. -/
def checkRuntime (run mismatch missing : String) (r : JobRuntime) : Except String Unit := do
  ensure (r.attempts ≤ maxJobAttempts) "invalid job runtime attempt count"
  match r.latestRun with
  | some last => do
    ensure (0 < last.runId ∧ 0 < last.attempt ∧ last.attempt ≤ maxJobAttempts ∧
      last.error.all fun error => len error ≤ 2048) run
    ensure (r.running = last.finishedUs.isNone) mismatch
  | none => ensure (r.running = false) missing

/-- `JobRuntime::validate` of the journal. -/
def JobRuntime.validate : JobRuntime → Except String Unit :=
  checkRuntime "invalid job runtime run" "job runtime running state mismatch"
    "job runtime is running without a run"

def validateRuntime : JobRuntime → Except String Unit :=
  checkRuntime "invalid private job run" "private job running state does not match latest run"
    "private job is running without a run record"

structure JobRuntime.Valid (r : JobRuntime) : Prop where
  attempts : r.attempts ≤ maxJobAttempts
  run : ∀ last, r.latestRun = some last → 0 < last.runId ∧ 0 < last.attempt ∧
    last.attempt ≤ maxJobAttempts ∧ (∀ error, last.error = some error → len error ≤ 2048) ∧
    r.running = last.finishedUs.isNone
  idle : r.latestRun = none → r.running = false

theorem checkRuntime_ok : checkRuntime a b c r = .ok () ↔ r.Valid := by
  unfold checkRuntime
  rw [ensure_bind]
  cases hr : r.latestRun with
  | none =>
    simp only [Result.ensure_ok]
    constructor
    · rintro ⟨ha, hi⟩
      refine ⟨ha, ?_, fun _ => hi⟩
      intro last hl
      rw [hr] at hl
      cases hl
    · intro h
      exact ⟨h.attempts, h.idle hr⟩
  | some last =>
    simp only [ensure_bind, Result.ensure_ok, Option.all_eq_true, decide_eq_true_eq]
    constructor
    · rintro ⟨ha, ⟨hi, h0, h5, he⟩, hm⟩
      refine ⟨ha, ?_, by simp [hr]⟩
      intro last' hl
      rw [hr] at hl
      cases hl
      exact ⟨hi, h0, h5, he, hm⟩
    · intro h
      obtain ⟨hi, h0, h5, he, hm⟩ := h.run last hr
      exact ⟨h.attempts, ⟨hi, h0, h5, he⟩, hm⟩

theorem valid_fromDefinition (h : validateJob job n = .ok ()) :
    (JobRuntime.fromDefinition job).Valid := by
  refine checkRuntime_ok.mp (?_ : checkRuntime "invalid job run" "invalid job running state"
    "job is running without a run record" _ = .ok ())
  unfold validateJob at h
  obtain ⟨_, -, h⟩ := bind_ok.mp h
  obtain ⟨_, -, h⟩ := bind_ok.mp h
  rw [ensure_bind, ensure_bind] at h
  obtain ⟨-, ha, h⟩ := h
  rw [checkRuntime, ensure_bind]
  exact ⟨ha, h⟩

/-- `VARVEJ01`. -/
def journalMagic : Bytes := [86, 65, 82, 86, 69, 74, 48, 49]

def maxJournalBytes : Nat := 4 * 1024 * 1024

structure RuntimeJournal where
  formatVersion : Nat
  jobs : Map JobRuntime

def RuntimeJournal.json (j : RuntimeJournal) : Text :=
  Json.object [("format_version".toList, Json.nat j.formatVersion),
    ("jobs".toList, Map.json JobRuntime.json j.jobs)]

/-- The reader of `serde_json` the journal is read with. -/
structure Reader where
  fromSlice : Bytes → Except String RuntimeJournal
  fromSlice_json : ∀ j, fromSlice (utf8 j.json) = .ok j

section
variable (H : Digest)

def encode (jobs : Map JobRuntime) : Except String Bytes := do
  let json := RuntimeJournal.json ⟨1, jobs⟩
  ensure (8 + len json + 32 ≤ maxJournalBytes) "job runtime journal exceeds 4MiB"
  .ok (sealText H journalMagic json)

/-- The runtime map of the file, `none` when there is no file. -/
def load (R : Reader) : Option Bytes → Except String (Map JobRuntime)
  | none => .ok ∅
  | some bytes => do
    ensure (bytes.length ≤ maxJournalBytes) "file exceeds read budget"
    ensure (40 ≤ bytes.length ∧ bytes.take 8 = journalMagic)
      "invalid job runtime journal magic or size"
    ensure (H.hash (bytes.take (bytes.length - 32)) = bytes.drop (bytes.length - 32))
      "job runtime journal checksum mismatch"
    let journal ← R.fromSlice ((bytes.take (bytes.length - 32)).drop 8)
    ensure (journal.formatVersion = 1) "unsupported job runtime journal version"
    journal.jobs.toList.forM fun (_, runtime) => runtime.validate
    .ok journal.jobs

end

/-- A written journal whose entries pass the check is read back as the map it was written from. -/
theorem load_encode {H : Digest} {R : Reader} {m : Map JobRuntime} (h : encode H m = .ok bytes)
    (hm : ∀ (name : Text) r, m[name]? = some r → r.Valid) : load H R (some bytes) = .ok m := by
  simp only [encode, ensure_bind, Except.ok.injEq] at h
  obtain ⟨hsize, rfl⟩ := h
  have hmagic : journalMagic.length = 8 := rfl
  have hlen : (sealText H journalMagic (RuntimeJournal.json ⟨1, m⟩)).length =
      8 + len (RuntimeJournal.json ⟨1, m⟩) + 32 := by
    simp [sealText, H.length_hash, hmagic, Nat.add_assoc]
  have htake : (sealText H journalMagic (RuntimeJournal.json ⟨1, m⟩)).take
      ((sealText H journalMagic (RuntimeJournal.json ⟨1, m⟩)).length - 32) =
      journalMagic ++ utf8 (RuntimeJournal.json ⟨1, m⟩) := by
    rw [hlen]
    exact List.take_left' (by simp [hmagic])
  have hdrop : (sealText H journalMagic (RuntimeJournal.json ⟨1, m⟩)).drop
      ((sealText H journalMagic (RuntimeJournal.json ⟨1, m⟩)).length - 32) =
      H.hash (journalMagic ++ utf8 (RuntimeJournal.json ⟨1, m⟩)) := by
    rw [hlen]
    exact List.drop_left' (by simp [hmagic])
  have hfront : (sealText H journalMagic (RuntimeJournal.json ⟨1, m⟩)).take 8 = journalMagic := by
    rw [sealText, List.append_assoc]
    exact List.take_left' hmagic
  have hread : R.fromSlice ((journalMagic ++ utf8 (RuntimeJournal.json ⟨1, m⟩)).drop 8) =
      .ok ⟨1, m⟩ := by
    rw [List.drop_left' hmagic, R.fromSlice_json]
  simp only [load, ensure_bind, htake, hdrop, hfront]
  refine ⟨by omega, ⟨by omega, trivial⟩, trivial, ?_⟩
  rw [hread, Result.ok_bind, ensure_bind]
  refine ⟨rfl, bind_ok.mpr ⟨(), forM_ok.mpr ?_, rfl⟩⟩
  intro p hp
  exact checkRuntime_ok.mpr (hm p.1 p.2 (Map.mem_toList.mp hp))

theorem front_run : Json.Front JobRun.json := by
  intro a b x y _ _ h
  obtain ⟨-, h1, h⟩ := Json.object_front Json.front_nat h
  obtain ⟨-, h2, h⟩ := Json.closing_front Json.front_int h
  obtain ⟨-, h3, h⟩ := Json.closing_front Json.front_int h
  obtain ⟨-, h4, h⟩ := Json.closing_front (Json.front_option Json.front_int Json.int_ne_null) h
  obtain ⟨-, h5, h⟩ := Json.closing_front Json.front_nat h
  obtain ⟨-, h6, h⟩ := Json.closing_front (Json.front_option Json.front_bool Json.bool_ne_null) h
  obtain ⟨-, h7, h⟩ :=
    Json.closing_front (Json.front_option Json.front_string Json.string_ne_null) h
  refine ⟨?_, Json.closing_nil_front h⟩
  cases a
  cases b
  simp_all

theorem run_ne_null (r : JobRun) (x y : Text) (_ : Json.Delimited x) : r.json ++ x ≠ 'n' :: y := by
  rw [JobRun.json, Json.object_cons]
  exact fun h => absurd (List.cons.inj h).1 (by decide)

theorem front_runtime : Json.Front JobRuntime.json := by
  intro a b x y _ _ h
  obtain ⟨-, h1, h⟩ := Json.object_front Json.front_nat h
  obtain ⟨-, h2, h⟩ := Json.closing_front (Json.front_option Json.front_int Json.int_ne_null) h
  obtain ⟨-, h3, h⟩ := Json.closing_front Json.front_bool h
  obtain ⟨-, h4, h⟩ := Json.closing_front Json.front_nat h
  obtain ⟨-, h5, h⟩ := Json.closing_front (Json.front_option front_run run_ne_null) h
  refine ⟨?_, Json.closing_nil_front h⟩
  cases a
  cases b
  simp_all

theorem RuntimeJournal.json_injective : Function.Injective RuntimeJournal.json := by
  intro a b h
  replace h : a.json ++ [] = b.json ++ [] := by rw [h]
  obtain ⟨-, h1, h⟩ := Json.object_front Json.front_nat h
  obtain ⟨-, h2, -⟩ := Json.closing_front (Map.front_json front_runtime) h
  cases a
  cases b
  simp_all

/-- The reader that accepts the texts of journals and nothing else. -/
noncomputable def textReader : Reader where
  fromSlice bytes :=
    open Classical in
    if h : ∃ j, utf8 (RuntimeJournal.json j) = bytes then .ok h.choose else .error "not a journal"
  fromSlice_json j := by
    have h : ∃ k, utf8 (RuntimeJournal.json k) = utf8 j.json := ⟨j, rfl⟩
    rw [dif_pos h]
    exact congrArg Except.ok
      (RuntimeJournal.json_injective (Text.utf8_injective h.choose_spec))

end Varve.Jobs
