import Varve.Journal.Durability

/-!
# Canonical segments

A byte string that is accepted as a sealed segment is the encoding of the groups it was found to
hold.
-/

namespace Varve.Journal

open Result (bind_ok ensure_bind ensure_ok)
open Bytes (le64 word)

section
variable {H : Digest} {config : JournalConfig} {segment : Segment} {hash : Bytes}

theorem fields_of_words (hlen : 32 ≤ header.length) (hm : header.take 8 = magic) :
    header.take 32 =
      magic ++ le64 (word header 8) ++ le64 (word header 16) ++ le64 (word header 24) := by
  rw [Bytes.le64_word (by omega), Bytes.le64_word (by omega), Bytes.le64_word (by omega), ← hm]
  show header.take (8 + 8 + 8 + 8) = _
  rw [List.take_add, List.take_add, List.take_add]

theorem readExact_ok (h : readExact rest n = .ok (a, b)) : rest = a ++ b ∧ a.length = n := by
  unfold readExact at h
  split at h
  next hn =>
    cases h
    exact ⟨(List.take_append_drop _ _).symm, by rw [List.length_take]; omega⟩
  next => cases h

theorem checkGroupHeader_ok (h : checkGroupHeader H config header pos next = .ok (size, count))
    (hlen : header.length = headerBytes) :
    header = groupHeader H size next count ∧ 0 < count ∧ count ≤ config.maxRecordsPerGroup ∧
      headerBytes + trailerBytes + count * 8 ≤ size ∧ size ≤ config.maxFrameBytes ∧
      next + count < 2 ^ 64 ∧ pos + size + reservedSealBytes ≤ config.segmentBytes := by
  simp only [checkGroupHeader, ensure_bind, Except.ok.injEq, Prod.mk.injEq] at h
  obtain ⟨hmagic, hhash, ⟨hpos, hcount⟩, ⟨hge, hle⟩, hfirst, hnext, hfits, hs, hc⟩ := h
  rw [hs] at hge hle hfits
  rw [hc] at hpos hcount hge hnext
  refine ⟨?_, hpos, hcount, hge, hle, hnext, hfits⟩
  have hfields := fields_of_words (by rw [hlen]; decide) hmagic
  rw [hs, hfirst, hc] at hfields
  rw [groupHeader, groupFields, ← hfields, hhash, List.take_append_drop]

-- Frames

theorem drop_take_split {l : List α} (ha : a ≤ b) (hb : b ≤ t) :
    (l.take t).drop a = (l.drop a).take (b - a) ++ (l.take t).drop b := by
  have hlen : t - a = (b - a) + (t - b) := by omega
  have hb : a + (b - a) = b := by omega
  rw [List.drop_take, List.drop_take, hlen, List.take_add, List.drop_drop, hb]

theorem checkRecords_ok (h : checkRecords config bytes trailer count cursor = .ok ())
    (ht : trailer ≤ bytes.length) : ∃ records : List Bytes, records.length = count ∧
      (bytes.take trailer).drop cursor = encodeRecords records ∧
      ∀ r ∈ records, r.length ≤ config.maxRecordBytes := by
  induction count generalizing cursor with
  | zero =>
    have hc : cursor = trailer := ensure_ok.mp h
    refine ⟨[], rfl, ?_, by simp⟩
    rw [List.drop_eq_nil_of_le (by rw [List.length_take]; omega)]
    rfl
  | succ count ih =>
    simp only [checkRecords, ensure_bind] at h
    obtain ⟨hword, hmax, hcross, h⟩ := h
    obtain ⟨records, hcount, hrest, hall⟩ := ih h
    have hlen : ((bytes.drop (cursor + 8)).take (word bytes cursor)).length =
        word bytes cursor := by
      rw [List.length_take, List.length_drop]
      omega
    refine ⟨(bytes.drop (cursor + 8)).take (word bytes cursor) :: records,
      by rw [List.length_cons, hcount], ?_, List.forall_mem_cons.mpr ⟨hlen.trans_le hmax, hall⟩⟩
    have hcons (r : Bytes) : encodeRecords (r :: records) =
        le64 r.length ++ (r ++ encodeRecords records) := by
      simp [encodeRecords]
    have hsplit : (bytes.take trailer).drop cursor = _ :=
      drop_take_split (Nat.le_add_right cursor 8) hword
    have hsplit' : (bytes.take trailer).drop (cursor + 8) = _ :=
      drop_take_split (Nat.le_add_right (cursor + 8) (word bytes cursor)) (by omega)
    rw [hcons, hlen, Bytes.le64_word (by omega), ← hrest, hsplit, hsplit',
      Nat.add_sub_cancel_left, Nat.add_sub_cancel_left]

theorem word_drop (bytes : Bytes) (a k : Nat) : word (bytes.drop a) k = word bytes (a + k) := by
  rw [word, word, List.drop_drop]

theorem checkFrame_ok (h : checkFrame H config bytes size count next = .ok ())
    (hlen : bytes.length = size) (hge : headerBytes + trailerBytes ≤ size)
    (hhead : bytes.take headerBytes = groupHeader H size next count) :
    ∃ records : List Bytes, records.length = count ∧
      (∀ r ∈ records, r.length ≤ config.maxRecordBytes) ∧ size = frameSize records ∧
      bytes = frame H next records ∧
      (bytes.take (size - trailerBytes)).drop headerBytes = encodeRecords records := by
  simp only [checkFrame, ensure_bind] at h
  obtain ⟨⟨hmagic, h8, h16, h24⟩, hhash, h⟩ := h
  obtain ⟨records, hcount, hregion, hall⟩ := checkRecords_ok h (by omega)
  have hheader : headerBytes = 64 := rfl
  have htrailer : trailerBytes = 64 := rfl
  have hbody : bytes.take (size - trailerBytes) =
      groupHeader H size next count ++ encodeRecords records := by
    rw [← hhead, ← hregion]
    have htake : bytes.take headerBytes = (bytes.take (size - trailerBytes)).take headerBytes := by
      rw [List.take_take, Nat.min_eq_left (by omega)]
    rw [htake, List.take_append_drop]
  have hsize : size = frameSize records := by
    have hl := congrArg List.length hbody
    rw [List.length_take, List.length_append, length_groupHeader, length_encodeRecords] at hl
    rw [frameSize]
    omega
  have hfields : (bytes.drop (size - trailerBytes)).take 32 =
      trailerFields next (next + count - 1) size := by
    rw [fields_of_words (by rw [List.length_drop]; omega) hmagic, word_drop, word_drop, word_drop,
      h8, h16, h24]
    rfl
  have hcontent : bytes.take (size - 32) = groupHeader H size next count ++
      encodeRecords records ++ trailerFields next (next + count - 1) size := by
    have hsum : size - 32 = (size - trailerBytes) + 32 := by omega
    rw [hsum, List.take_add, hbody, hfields]
  refine ⟨records, hcount, hall, hsize, ?_, hregion⟩
  calc bytes = bytes.take (size - 32) ++ bytes.drop (size - 32) :=
        (List.take_append_drop _ _).symm
    _ = frame H next records := by
        rw [← hhash, hcontent, frame, encode, hcount, ← hsize]

-- Segments

theorem inspectLoop_canonical
    (h : inspectLoop H config segment false fuel rest pos next hash = .ok (visited, scanEnd))
    (hs : scanEnd.sealed = true) (hl : pos + rest.length = segment.len) :
    ∃ groups : List (List Bytes), visited = replay next groups ∧
      (∀ g ∈ groups, GroupOk config g) ∧
      pos + framesSize groups + reservedSealBytes = segment.len ∧
      rest = frames H next groups ++ sealOf H (hash ++ frames H next groups) segment.id
        (next + groups.flatten.length) segment.len := by
  induction fuel generalizing rest pos next hash visited with
  | zero => cases h
  | succ fuel ih =>
    unfold inspectLoop at h
    split at h
    next hpos =>
      dsimp only at h
      split at h
      next => simp [Result.ensure_neg] at h
      next hfull =>
        rw [bind_ok] at h
        obtain ⟨⟨header, tail⟩, hread, h⟩ := h
        obtain ⟨rfl, hheader⟩ := readExact_ok hread
        rw [List.length_append] at hl
        split at h
        next hmagic =>
          simp only [ensure_bind, Except.ok.injEq, Prod.mk.injEq] at h
          obtain ⟨⟨h8, h16, h24, hend⟩, hhash, rfl, -⟩ := h
          have hseal : reservedSealBytes = headerBytes := rfl
          have htail : tail = [] := List.length_eq_zero_iff.mp (by omega)
          have hfields := fields_of_words (by rw [hheader]; decide) hmagic
          rw [h8, h16, h24, hend] at hfields
          refine ⟨[], rfl, by simp, by simpa [framesSize] using hend, ?_⟩
          rw [htail, List.append_nil, frames, List.nil_append, List.append_nil, sealOf, sealFields,
            List.flatten_nil, List.length_nil, Nat.add_zero, ← hfields, hhash,
            List.take_append_drop]
        next =>
          rw [bind_ok] at h
          obtain ⟨⟨size, count⟩, hcheck, h⟩ := h
          obtain ⟨hgroup, hpositive, hcount, hge, hle, -, -⟩ := checkGroupHeader_ok hcheck hheader
          dsimp only at h
          split at h
          next => simp [Result.ensure_neg] at h
          next hroom =>
            rw [bind_ok] at h
            obtain ⟨⟨body, rest⟩, hread', h⟩ := h
            obtain ⟨rfl, hbody⟩ := readExact_ok hread'
            dsimp only at h
            rw [bind_ok] at h
            obtain ⟨⟨⟩, hframe, h⟩ := h
            rw [bind_ok] at h
            obtain ⟨⟨groups, e⟩, hloop, h⟩ := h
            cases h
            rw [List.length_append] at hl
            obtain ⟨records, rfl, hall, hsize, hbytes, hregion⟩ := checkFrame_ok hframe
              (by rw [List.length_append]; omega) (by omega)
              ((List.take_left' hheader).trans hgroup)
            obtain ⟨groups, rfl, hgroups, hend, rfl⟩ := ih hloop (by omega)
            refine ⟨records :: groups, ?_, ?_, ?_, ?_⟩
            · rw [replay, hregion]
            · refine List.forall_mem_cons.mpr ⟨⟨?_, hcount, hall, hsize ▸ hle⟩, hgroups⟩
              exact List.length_pos_iff.mp hpositive
            · rw [← hend, framesSize, List.map_cons, List.sum_cons, ← hsize, ← framesSize]
              omega
            · rw [frames, List.flatten_cons, List.length_append, ← hbytes]
              simp only [List.append_assoc, Nat.add_assoc]
    next =>
      cases h
      cases hs

def ReplayGroup.payloads (g : ReplayGroup) : List Bytes := splitRecords g.count g.records

theorem payloads_replay (hc : config.Valid) (hg : ∀ g ∈ groups, GroupOk config g) :
    (replay first groups).map ReplayGroup.payloads = groups := by
  have hrecord := hc.record
  have hframe := hc.frame
  induction groups generalizing first with
  | nil => rfl
  | cons g gs ih =>
    obtain ⟨hg, hgs⟩ := List.forall_mem_cons.mp hg
    rw [replay, List.map_cons, ih hgs, ReplayGroup.payloads]
    dsimp only
    rw [splitRecords_encode fun r hr => by have := hg.record r hr; omega]

theorem inspect_canonical (hc : config.Valid)
    (h : inspect H config segment false content first = .ok (visited, scanEnd))
    (hs : scanEnd.sealed = true) :
    visited = replay first (visited.map ReplayGroup.payloads) ∧
      content = Piece.sealedBytes H ⟨segment.id, first, visited.map ReplayGroup.payloads⟩ := by
  simp only [inspect, inspectReader, ensure_bind] at h
  obtain ⟨hlen, h⟩ := h
  rw [bind_ok] at h
  obtain ⟨⟨header, rest⟩, hread, h⟩ := h
  obtain ⟨rfl, hheader⟩ := readExact_ok hread
  simp only [ensure_bind] at h
  obtain ⟨hhead, h⟩ := h
  split at h
  next => simp [Result.ensure_neg] at h
  next hfull =>
    have hmin : min segment.len headerBytes = headerBytes := by omega
    rw [hmin] at hhead hheader
    rw [List.take_of_length_le (by simp)] at hhead
    obtain ⟨groups, rfl, hgroups, hend, rfl⟩ := inspectLoop_canonical h hs (by
      rw [← hlen, List.length_append, hheader])
    rw [payloads_replay hc hgroups]
    refine ⟨rfl, ?_⟩
    rw [Piece.sealedBytes, Piece.sealBytes, Piece.body, hhead, Piece.next, Piece.records,
      Piece.bodySize, hend, List.append_assoc]

theorem validateSealedBytes_iff :
    validateSealedBytes H config expected content = .ok visited ↔
      validateSealedSegment H config expected content = .ok visited := by
  unfold validateSealedBytes validateSealedSegment
  cases checkDescriptor config expected with
  | error e => rw [Result.error_bind, Result.error_bind]
  | ok u =>
    simp only [Result.ok_bind, ensure_bind]
    constructor
    · rintro ⟨⟨hlen, hbounds⟩, h⟩
      exact ⟨hbounds, hlen.symm, h⟩
    · rintro ⟨hbounds, hlen, h⟩
      exact ⟨⟨hlen.symm, hbounds⟩, h⟩

theorem validateSealedBytes_canonical
    (h : validateSealedBytes H config expected content = .ok visited) :
    visited = replay expected.firstSequence (visited.map ReplayGroup.payloads) ∧
      content = Piece.sealedBytes H
        ⟨expected.id, expected.firstSequence, visited.map ReplayGroup.payloads⟩ := by
  rw [validateSealedBytes, bind_ok] at h
  obtain ⟨u, hdescriptor, h⟩ := h
  rw [checkDescriptor, bind_ok] at hdescriptor
  obtain ⟨u', hv, -⟩ := hdescriptor
  rw [ensure_bind, inspectExpected, bind_ok] at h
  obtain ⟨-, ⟨groups, scanEnd⟩, hinspect, h⟩ := h
  rw [ensure_bind] at h
  obtain ⟨⟨hsealed, -⟩, h⟩ := h
  have hc : config.Valid := JournalConfig.valid hv
  have hfound := inspect_canonical hc hinspect hsealed
  rwa [Except.ok.inj h] at hfound

-- The codec

/-- Every group of the segment was accepted by an append that found the groups before it in the
active segment and did not rotate. -/
def Piece.Appended (config : JournalConfig) (p : Piece) : Prop :=
  ∀ before g after, p.groups = before ++ g :: after → ∃ (j : Journal) (plan : AppendPlan)
    (a : Active), j.config = config ∧ j.nextSequence = p.first + before.flatten.length ∧
      j.active = some a ∧ a.len = headerBytes + framesSize before ∧
      j.appendPlan g true = .ok plan ∧ plan.rotate = false

theorem Piece.Appended.fitting (h : Piece.Appended config p) (hc : config.Valid)
    (hf : p.first < 2 ^ 64) : p.Fits config := by
  refine ⟨?_, ?_, ?_⟩
  · intro g hg
    obtain ⟨before, after, heq⟩ := List.append_of_mem hg
    obtain ⟨j, plan, a, rfl, -, -, -, hplan, -⟩ := h before g after heq
    exact (appendPlan_ok.mp hplan).1.group
  · rcases List.eq_nil_or_concat' p.groups with hnil | ⟨before, g, heq⟩
    · simpa [Piece.next, Piece.records, hnil] using hf
    · obtain ⟨j, plan, a, rfl, hnext, -, -, hplan, -⟩ := h before g [] heq
      have hlt := (appendPlan_ok.mp hplan).1.next
      rw [hnext] at hlt
      simpa [Piece.next, Piece.records, heq, Nat.add_assoc] using hlt
  · rcases List.eq_nil_or_concat' p.groups with hnil | ⟨before, g, heq⟩
    · have hseg := hc.segment.1
      simp only [Piece.bodySize, hnil, framesSize, List.map_nil, List.sum_nil]
      unfold JournalConfig.minimum at hseg
      omega
    · obtain ⟨j, plan, a, rfl, -, hactive, hlen, hplan, hrotate⟩ := h before g [] heq
      obtain ⟨-, rfl⟩ := appendPlan_ok.mp hplan
      have hrotate : j.mustRotate (frameSize g) = false := hrotate
      simp only [mustRotate, hactive, Bool.or_eq_false_iff, decide_eq_false_iff_not,
        Nat.not_lt] at hrotate
      have hsum : p.bodySize = a.len + frameSize g := by
        simp [Piece.bodySize, heq, framesSize, hlen, Nat.add_assoc]
      rw [hsum]
      exact hrotate.1

/-- What append wrote is what a scan of the sealed segment visits; what is accepted as a sealed
segment is the encoding of the groups it visits; and both validators accept the same. -/
theorem sealed_codec (hv : config.validate = .ok ()) :
    (∀ (p : Piece) (allowTail : Bool) (a b : Nat), p.Appended config → p.id < 2 ^ 64 →
      p.first < 2 ^ 64 → ∃ scanEnd,
        inspectReader H config ⟨p.id, (p.sealedBytes H).length, a, b⟩ allowTail (p.sealedBytes H)
          p.first = .ok (replay p.first p.groups, scanEnd) ∧
        scanEnd.sealed = true ∧ scanEnd.next = p.next ∧
        (replay p.first p.groups).map ReplayGroup.payloads = p.groups) ∧
    (∀ expected content visited, validateSealedBytes H config expected content = .ok visited →
      visited = replay expected.firstSequence (visited.map ReplayGroup.payloads) ∧
      content = Piece.sealedBytes H
        ⟨expected.id, expected.firstSequence, visited.map ReplayGroup.payloads⟩) ∧
    ∀ expected content visited, validateSealedBytes H config expected content = .ok visited ↔
      validateSealedSegment H config expected content = .ok visited := by
  have hc := JournalConfig.valid hv
  refine ⟨fun p allowTail a b hp hid hf => ?_, fun _ _ _ => validateSealedBytes_canonical,
    fun _ _ _ => validateSealedBytes_iff⟩
  have hfits := hp.fitting hc hf
  have hsealed : ∃ hash, inspect H config ⟨p.id, (p.sealedBytes H).length, a, b⟩ allowTail
      (p.sealedBytes H) p.first =
        .ok (replay p.first p.groups, ⟨p.next, (p.sealedBytes H).length, true, false, hash⟩) :=
    inspect_sealed hc hfits hid
  obtain ⟨hash, hinspect⟩ := hsealed
  rw [inspect, Result.ensure_pos rfl, Result.ok_bind] at hinspect
  exact ⟨_, hinspect, rfl, rfl, payloads_replay hc hfits.groups⟩

end

def twoGroups : Piece := ⟨1, 1, [[[7]], [[8], [9, 9]]]⟩

theorem appended_twoGroups : twoGroups.Appended smallConfig := by
  intro before g after h
  match before, h with
  | [], h =>
    cases h
    exact ⟨⟨smallConfig, [⟨1, 64, 1, 0⟩], some ⟨64, []⟩, 1, 2, 0, 64, 0, 0⟩, _, ⟨64, []⟩, rfl, rfl,
      rfl, rfl, appendPlan_ok.mpr ⟨⟨⟨by decide, by decide, by decide, by decide⟩, by decide,
        by decide, by decide, by decide⟩, rfl⟩, by decide⟩
  | [_], h =>
    cases h
    exact ⟨⟨smallConfig, [⟨1, 201, 1, 1⟩], some ⟨201, []⟩, 2, 2, 0, 201, 1, 0⟩, _, ⟨201, []⟩, rfl,
      rfl, rfl, rfl, appendPlan_ok.mpr ⟨⟨⟨by decide, by decide, by decide, by decide⟩, by decide,
        by decide, by decide, by decide⟩, rfl⟩, by decide⟩
  | _ :: _ :: before, h => simp [twoGroups] at h

theorem sealed_codec_twoGroups : ∃ scanEnd,
    inspectReader blake3 smallConfig ⟨1, (twoGroups.sealedBytes blake3).length, 0, 0⟩ false
      (twoGroups.sealedBytes blake3) 1 = .ok (replay 1 twoGroups.groups, scanEnd) ∧
      scanEnd.next = 4 := by
  have hv : smallConfig.validate = .ok () := by decide
  obtain ⟨hvisits, -, -⟩ := @sealed_codec blake3 smallConfig hv
  obtain ⟨scanEnd, hinspect, -, hnext, -⟩ :=
    hvisits twoGroups false 0 0 appended_twoGroups (by decide) (by decide)
  exact ⟨scanEnd, hinspect, hnext⟩

end Varve.Journal
