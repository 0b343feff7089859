import Varve.Commit.Batching
import Varve.Wal.Admission

/-!
# Packed groups fit

`write_prepared_group` packs by admission charges.
-/

namespace Varve.Commit

open Journal (Digest)
open Engine (F64 Manifest u64Max)
open Text (len)

variable {F D P : Type}

def OfPrepared [F64 F] (H : Digest) (p : PreparedWrite F) : Prop :=
  ∃ w : Wal.PreparedWrite F, Wal.Prepared H w ∧ p.item = w.item ∧
    p.admissionBytes = w.admissionBytes

def bytesOf (group : List (PreparedWrite F)) : Nat := (group.map PreparedWrite.admissionBytes).sum

structure Batch.Packed (limits : Limits) (b : Batch F) : Prop where
  bytes : b.bytes = 128 + bytesOf b.group
  fits : b.group ≠ [] → b.bytes ≤ limits.byteLimit
  count : b.group.length ≤ Wal.maxGroupRequests

theorem packed_empty (limits : Limits) : (Batch.empty : Batch F).Packed limits :=
  ⟨rfl, fun h => absurd rfl h, Nat.zero_le _⟩

theorem Batch.Packed.push {limits : Limits} {b : Batch F} {p : PreparedWrite F}
    (h : b.Packed limits) (hf : b.full limits p = false) (ho : oversized limits p = false)
    (index : Nat) : (b.push index p).Packed limits := by
  simp only [oversized, Bool.or_eq_false_iff, decide_eq_false_iff_not, not_lt] at ho
  have hbytes : (b.push index p).bytes = 128 + bytesOf (b.group ++ [p]) := by
    simp only [Batch.push, h.bytes, bytesOf, List.map_append, List.sum_append, List.map_cons,
      List.map_nil, List.sum_cons, List.sum_nil]
    omega
  by_cases hg : b.group = []
  · refine ⟨hbytes, fun _ => ?_, by simp [Batch.push, hg, Wal.maxGroupRequests]⟩
    rw [hbytes, hg]
    simpa [bytesOf, Nat.add_comm] using ho.2
  · simp only [Batch.full, Bool.and_eq_false_iff, Bool.not_eq_false', List.isEmpty_iff, hg,
      Bool.or_eq_false_iff, decide_eq_false_iff_not, not_lt, false_or] at hf
    have hcount := h.count
    refine ⟨hbytes, fun _ => hf.2, ?_⟩
    simp only [Batch.push, List.length_append, List.length_singleton]
    omega

section
variable [F64 F] {H : Digest} {sv : Services F D P} {limits : Limits}

/-- The batch of a driver holds inputs only, and within the limits. -/
structure Driver.Packed (limits : Limits) (inputs : List (Input F)) (d : Driver F) : Prop where
  batch : d.batch.Packed limits
  inputs : ∀ p ∈ d.batch.group, .ok p ∈ inputs

theorem Driver.Packed.take {inputs : List (Input F)} {d : Driver F} (h : d.Packed limits inputs)
    (fuel : Nat) {x : Input F × Nat} (hx : x.1 ∈ inputs) :
    (d.take H sv limits fuel x).Packed limits inputs := by
  obtain ⟨input, index⟩ := x
  have hplace (d : Driver F) (p : PreparedWrite F) (hd : d.Packed limits inputs)
      (hfull : d.batch.full limits p = false) (hp : .ok p ∈ inputs) :
      (d.place H sv limits fuel index p).Packed limits inputs := by
    rw [Driver.place]
    split
    · exact ⟨hd.batch, hd.inputs⟩
    · rename_i ho
      refine ⟨hd.batch.push hfull (by simpa using ho) index, ?_⟩
      simp only [Batch.push, List.forall_mem_append, List.forall_mem_singleton]
      exact ⟨hd.inputs, hp⟩
  cases input with
  | error e => exact ⟨h.batch, h.inputs⟩
  | ok p =>
    show (Driver.place H sv limits fuel _ index p).Packed limits inputs
    split
    · exact hplace _ p ⟨packed_empty limits, by simp [Driver.flush, Batch.empty]⟩ rfl hx
    · rename_i hfull
      exact hplace d p h (by simpa using hfull) hx

theorem driver_packed (fuel : Nat) {inputs : List (Input F)} {front : List (Input F × Nat)}
    (hfront : ∀ x ∈ front, x.1 ∈ inputs) (db : Db F) (results : List (Option Outcome)) :
    (front.foldl (Driver.take H sv limits fuel) ⟨db, results, .empty⟩).Packed limits inputs := by
  have hfold (d : Driver F) (hd : d.Packed limits inputs) :
      (front.foldl (Driver.take H sv limits fuel) d).Packed limits inputs := by
    induction front generalizing d with
    | nil => exact hd
    | cons x front ih =>
      obtain ⟨hx, hrest⟩ := List.forall_mem_cons.mp hfront
      exact ih hrest _ (hd.take fuel hx)
  exact hfold _ ⟨packed_empty limits, fun _ h => (nomatch h)⟩

omit [F64 F] in
theorem settle_items (s : State (Manifest F)) (pass : Pass F D) (e : Entry F) (result : Outcome) :
    (pass.settle s e result).items = pass.items := by
  unfold Pass.settle
  split
  · rfl
  · split <;> rfl

theorem offer_items (mode : WriteMode) (s : Session F) (sequence : Nat) (pass : Pass F D)
    (e : Entry F) : (pass.offer H sv limits mode s sequence e).items = pass.items ∨
      ∃ p, e.input = .ok p ∧
        (pass.offer H sv limits mode s sequence e).items = pass.items ++ [p] := by
  unfold Pass.offer
  split
  · exact .inl rfl
  · rename_i p hp
    split
    · exact .inl rfl
    · exact .inl rfl
    · split
      · exact .inl rfl
      · exact .inr ⟨p, hp, rfl⟩

theorem passOf_items (mode : WriteMode) (s : Session F) (sequence : Nat) :
    (passOf H sv limits mode s sequence).items.Sublist
      (s.entries.filterMap fun e => e.input.toOption) := by
  have hfold (entries : List (Entry F)) (pass : Pass F D) :
      ∃ more, (entries.foldl (Pass.stage H sv limits mode s sequence) pass).items =
        pass.items ++ more ∧ more.Sublist (entries.filterMap fun e => e.input.toOption) := by
    induction entries generalizing pass with
    | nil => exact ⟨[], by simp, .slnil⟩
    | cons e entries ih =>
      obtain ⟨more, hmore, hsub⟩ := ih (pass.stage H sv limits mode s sequence e)
      have hstage : (pass.stage H sv limits mode s sequence e).items = pass.items ∨
          ∃ p, e.input = .ok p ∧
            (pass.stage H sv limits mode s sequence e).items = pass.items ++ [p] := by
        unfold Pass.stage
        split
        · exact .inl (settle_items _ _ _ _)
        · exact offer_items mode s sequence pass e
      rcases hstage with hsame | ⟨p, hp, hpush⟩
      · refine ⟨more, by rw [List.foldl_cons, hmore, hsame], hsub.trans ?_⟩
        exact (List.sublist_cons_self e entries).filterMap _
      · refine ⟨p :: more, by rw [List.foldl_cons, hmore, hpush]; simp, ?_⟩
        rw [List.filterMap_cons, hp]
        exact hsub.cons_cons p
  obtain ⟨more, hmore, hsub⟩ := hfold s.entries
    ⟨⟨∅, []⟩, sv.derived s.db, [], [], [], 0, false, false, none⟩
  rw [passOf, hmore]
  exact hsub

-- Groups are never too large

theorem prepared_list {group : List (PreparedWrite F)} (h : ∀ p ∈ group, OfPrepared H p) :
    ∃ ws : List (Wal.PreparedWrite F), (∀ w ∈ ws, Wal.Prepared H w) ∧
      ws.map Wal.PreparedWrite.item = group.map PreparedWrite.item ∧
      ws.map Wal.PreparedWrite.admissionBytes = group.map PreparedWrite.admissionBytes := by
  induction group with
  | nil => exact ⟨[], fun _ h => (nomatch h), rfl, rfl⟩
  | cons p group ih =>
    obtain ⟨⟨w, hw, hitem, hbytes⟩, hrest⟩ := List.forall_mem_cons.mp h
    obtain ⟨ws, hws, hitems, hsum⟩ := ih hrest
    refine ⟨w :: ws, List.forall_mem_cons.mpr ⟨hw, hws⟩, ?_, ?_⟩
    · rw [List.map_cons, List.map_cons, hitem, hitems]
    · rw [List.map_cons, List.map_cons, hbytes, hsum]

variable (hf : ∀ v : F, F64.isFinite v = true → len (F64.text v) ≤ 24)
include hf

theorem packed_encodes {inputs : List (Input F)} {d : Driver F} (hd : d.Packed limits inputs)
    (hp : ∀ p, .ok p ∈ inputs → OfPrepared H p) {s : Session F}
    (hs : s.entries.map Entry.input = d.batch.group.map .ok) {sequence : Nat}
    (hq : sequence ≤ u64Max) (hne : (passOf H sv limits .group s sequence).items ≠ []) :
    ∃ encoded, WriteMode.encode H .group sequence (passOf H sv limits .group s sequence).items =
        .ok encoded ∧
      encoded.bytes.length ≤ limits.maxBatchBytes ∧ encoded.bytes.length ≤ limits.walMaxBytes := by
  have hsub : (passOf H sv limits .group s sequence).items.Sublist _ :=
    passOf_items .group s sequence
  have hgroup : (s.entries.filterMap fun e => e.input.toOption) = d.batch.group := by
    have hmap : (s.entries.filterMap fun e => e.input.toOption) =
        (s.entries.map Entry.input).filterMap Except.toOption := by
      rw [List.filterMap_map]
      rfl
    rw [hmap, hs, List.filterMap_map]
    exact List.filterMap_some
  rw [hgroup] at hsub
  generalize (passOf H sv limits .group s sequence).items = items at hsub hne ⊢
  have hof : ∀ p ∈ items, OfPrepared H p := fun p hmem => hp p (hd.inputs p (hsub.subset hmem))
  obtain ⟨ws, hws, hitems, hcharges⟩ := prepared_list hof
  have hwne : ws ≠ [] := by
    rintro rfl
    exact hne (List.map_eq_nil_iff.mp hitems.symm)
  have hgne : d.batch.group ≠ [] := by
    intro hg
    rw [hg] at hsub
    exact hne (List.sublist_nil.mp hsub)
  have hframe := Wal.charge_dominates hf hws hq hwne
  rw [hitems, hcharges] at hframe
  have hsum : (items.map PreparedWrite.admissionBytes).sum ≤ bytesOf d.batch.group :=
    (hsub.map _).sum_le_sum fun _ _ => Nat.zero_le _
  have hfits := hd.batch.fits hgne
  rw [hd.batch.bytes, Limits.byteLimit] at hfits
  have hcount : (items.map PreparedWrite.item).length ≤ Wal.maxGroupRequests := by
    rw [List.length_map]
    exact hsub.length_le.trans hd.batch.count
  refine ⟨_, Wal.appendGroup_fits (by simpa using hne) hcount (by omega), ?_, ?_⟩
  · dsimp only
    omega
  · dsimp only
    omega

/-- The charges of a group cover its frame, the credits of its writes the buffer the frame is
encoded in. -/
theorem admission_dominates (H : Digest) :
    (∀ (ps : List (Wal.PreparedWrite F)) (sequence : Nat) (encoded : Wal.EncodedRecord),
      (∀ p ∈ ps, Wal.Prepared H p) → sequence ≤ u64Max →
      Wal.EncodedRecord.appendGroup H sequence (ps.map Wal.PreparedWrite.item) = .ok encoded →
      encoded.bytes.length ≤ 128 + (ps.map Wal.PreparedWrite.admissionBytes).sum ∧
      ∀ pieces : List Bytes, encoded.bytes = Wal.frame H pieces.flatten →
        ∃ credits, ps.mapM Wal.PreparedWrite.detachFrameCredit = .ok credits ∧
          Wal.framePeak Wal.maxFrameBytes pieces ≤ (credits.map fun c => c.1.bytes).sum) ∧
    ∀ (sv : Services F D P) (limits : Limits) (fuel : Nat) (inputs : List (Input F)) (db : Db F)
      (front : List (Input F × Nat)) (s : Session F) (sequence : Nat),
      (∀ p, .ok p ∈ inputs → OfPrepared H p) → front <+: inputs.zipIdx →
      s.entries.map Entry.input = (front.foldl (Driver.take H sv limits fuel)
        ⟨db, List.replicate inputs.length none, .empty⟩).batch.group.map .ok →
      sequence ≤ u64Max → (passOf H sv limits .group s sequence).items ≠ [] →
      ∃ encoded, WriteMode.encode H .group sequence (passOf H sv limits .group s sequence).items =
          .ok encoded ∧
        encoded.bytes.length ≤ limits.maxBatchBytes ∧
        encoded.bytes.length ≤ limits.walMaxBytes := by
  refine ⟨fun ps sequence encoded hp hq h => ?_, fun sv limits fuel inputs db front s sequence hp
    hfront hs hq hne => ?_⟩
  · obtain ⟨hne, hbytes⟩ := Wal.appendGroup_ok h
    have hps : ps ≠ [] := by simpa using hne
    have hcharge := Wal.charge_dominates hf hp hq hps
    refine ⟨by rw [hbytes]; omega, fun pieces hpieces => ?_⟩
    refine Wal.credits_dominate hf hp hq hps ?_
    rw [← hbytes, hpieces, Wal.length_frame, Nat.add_comm]
  · have hmem (x : Input F × Nat) (hx : x ∈ front) : x.1 ∈ inputs :=
      List.fst_mem_of_mem_zipIdx (hfront.subset hx)
    exact packed_encodes hf (driver_packed fuel hmem db _) hp hs hq hne

end

def plainRow (value : Bool) : Wal.InputRow Bool where
  row := ⟨0, ['t'], ['s'], value, ∅⟩
  tenantCapacity := 1
  seriesCapacity := 8
  keyCapacity _ := 0
  valueCapacity _ := 0
  timestamp := by cases value <;> decide
  tenant_fits := by cases value <;> decide
  series_fits := by cases value <;> decide
  tags_fit := by simp

def plainRequest (value : Bool) : Wal.WriteRequest Bool where
  table := ⟨"metrics".toList, 7, by decide⟩
  requestId := ⟨['r', if value then '1' else '0'], 2, by cases value <;> decide⟩
  rows := [plainRow value]
  rowsCapacity := 4
  nowUs := 0
  rows_fit := Nat.le_of_ble_eq_true rfl
  clock := by decide

/-- What is prepared from the request, out of a budget of 100000 bytes. -/
def plainWrite (value : Bool) : Wal.PreparedWrite Bool where
  item := ⟨"metrics".toList, ['r', if value then '1' else '0'],
    Text.toHex (plainDigest.hash (Text.utf8 (@Wal.rowsJson Bool Wal.bits [plainRow value]))),
    [(plainRow value).row], some 0⟩
  raw := some ⟨14464, false, false⟩
  retainedBytes := 1303
  admissionBytes := 1707
  encodedBytes := 66
  residentBytes := 130

theorem plainWrite_prepared (value : Bool) :
    @Wal.Prepared Bool Wal.bits plainDigest (plainWrite value) := by
  have hbytes : @Wal.WriteRequest.admissionBytes Bool Wal.bits (plainRequest value) =
      .ok 1707 := by
    cases value <;> decide +kernel
  have henvelope : @Wal.allocationEnvelope Bool Wal.bits (plainRequest value) =
      .ok (14464, 1303) := by
    cases value <;> decide +kernel
  have hidentity : @Wal.rowIdentity Bool Wal.bits plainDigest [plainRow value] 1000 =
      .ok (66, Text.toHex (plainDigest.hash
        (Text.utf8 (@Wal.rowsJson Bool Wal.bits [plainRow value])))) := by
    cases value <;> decide +kernel
  have hresident : Wal.residentBytes [plainRow value] = .ok 130 := by
    cases value <;> decide +kernel
  refine ⟨plainRequest value, ⟨plainRequest value, 1707, 14464, 1303, none⟩,
    ⟨100000, 1, 0, 0, 0, 0, 0, 0⟩,
    ⟨plainRequest value, 1707, 14464, 1303, some ⟨14464, false, false⟩⟩,
    ⟨100000, 1, 14464, 0, 0, 0, 14464, 0⟩, 1, 1000, ?_, ?_, ?_⟩
  · exact Result.bind_ok.mpr ⟨_, hbytes, Result.bind_ok.mpr ⟨_, henvelope, rfl⟩⟩
  · cases value <;> rfl
  · exact Result.ensure_bind.mpr ⟨Nat.le_refl 1, Result.bind_ok.mpr ⟨_, hidentity,
      Result.bind_ok.mpr ⟨_, hresident, rfl⟩⟩⟩

/-- Two writes: the frame against their charges, its buffer against their credits. -/
theorem admission_dominates_plainWrites :
    ∃ encoded, @Wal.EncodedRecord.appendGroup Bool Wal.bits plainDigest 1
        [(plainWrite true).item, (plainWrite false).item] = .ok encoded ∧
      encoded.bytes.length ≤ 128 + (1707 + 1707) ∧
      ∃ pieces credits, encoded.bytes = Wal.frame plainDigest pieces.flatten ∧
        [plainWrite true, plainWrite false].mapM Wal.PreparedWrite.detachFrameCredit =
          .ok credits ∧
        Wal.framePeak Wal.maxFrameBytes pieces ≤ (credits.map fun c => c.1.bytes).sum := by
  have hp : ∀ p ∈ [plainWrite true, plainWrite false],
      @Wal.Prepared Bool Wal.bits plainDigest p := by
    simp [plainWrite_prepared]
  have hok : (@Wal.EncodedRecord.appendGroup Bool Wal.bits plainDigest 1
      [(plainWrite true).item, (plainWrite false).item]).isOk = true := by
    decide +kernel
  obtain ⟨encoded, h⟩ := Result.ok_of_isOk hok
  obtain ⟨hlen, hcredit⟩ := (@admission_dominates Bool Unit Unit Wal.bits
    (fun b _ => by cases b <;> decide) plainDigest).1 _ 1 encoded hp (by decide) h
  let _ : F64 Bool := Wal.bits
  have hbytes := (Wal.appendGroup_ok h).2
  obtain ⟨credits, hc, hpeak⟩ := hcredit [_] (by rw [List.flatten_singleton]; exact hbytes)
  exact ⟨encoded, h, hlen, _, credits, by rw [List.flatten_singleton]; exact hbytes, hc, hpeak⟩

end Varve.Commit
