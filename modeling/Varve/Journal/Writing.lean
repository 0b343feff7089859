import Mathlib.Data.List.TakeWhile
import Varve.Journal.Interrupted

/-!
# Writing to an open journal

An open journal matches the layout of its directory.
-/

namespace Varve.Journal

open Disk (File Through run apply)
open Result (ensure_bind)

variable {H : Digest} {config : JournalConfig} {L : Layout} {j : Journal}

/-- An open journal over a directory with layout `L` and history `K`, under a
durable checkpoint `root`. -/
structure Matches (H : Digest) (config : JournalConfig) (root : Nat) (K : List Bytes) (L : Layout)
    (j : Journal) : Prop where
  stored : Stored config root K L
  config_eq : j.config = config
  segments : j.segments = L.segments
  active : j.active = L.active.map fun p => ⟨p.bodySize, p.body H⟩
  next : j.nextSequence = K.length + 1
  durable : j.durableSequence = K.length
  ids : NextId root L.pieces j.nextSegmentId
  id_lt : j.nextSegmentId < 2 ^ 64
  bound : K.length + 1 < 2 ^ 64
  floor : j.checkpointSequence ≤ root
  /-- The segments reach the end of the history from the journal's own floor. -/
  frontier : max L.next (j.checkpointSequence + 1) = K.length + 1
  bytes : j.diskBytes = L.bytes

theorem Matches.advance (h : Matches H config root K L j) (hc : root ≤ c) (hK : c ≤ K.length) :
    Matches H config c K L j :=
  { h with
    stored := h.stored.advance hc hK
    ids := h.ids.imp_right fun ⟨hnil, hpos, hk⟩ => ⟨hnil, hpos.trans_le hc, hk⟩
    floor := h.floor.trans hc }

theorem endNext_lt {ps : List Piece} (hp : ∀ p ∈ ps, p.Ok config) : endNext 1 ps < 2 ^ 64 := by
  unfold endNext
  cases hl : ps.getLast? with
  | none => simp
  | some p => simpa using (hp p (List.mem_of_getLast? hl)).next_lt

theorem Stored.matches_reopened (h : Stored config c K L) (hc : c + 1 < 2 ^ 64) :
    Matches H config c K L (reopened H config c discarded L) where
  stored := h
  config_eq := rfl
  segments := rfl
  active := rfl
  next := h.reach
  durable := Nat.sub_eq_of_eq_add h.reach
  ids := .inl rfl
  id_lt := endId_lt h.pieces
  bound := by
    have hnext : L.next < 2 ^ 64 := endNext_lt h.pieces
    have := h.reach
    omega
  floor := Nat.le_refl c
  frontier := h.reach
  bytes := rfl

-- Appending to the last file

theorem Tail.append {f : File UInt8} (h : Tail H config c K g ps k f)
    (hx : ∀ x, f.synced <+: x → x <+: f.content ++ data → ∃ tail, AllOrNone g tail ∧
      Ending H config c (K ++ tail) ps k x)
    (hs : f.synced <+: f.content) : Tail H config c K g ps k (f.append data) where
  linked := h.linked
  current := hx _ (hs.trans (List.prefix_append _ _)) List.prefix_rfl
  survives := by
    intro x hsurv
    rcases hsurv.of_append with hsurv | ⟨hs, hpre⟩
    · exact h.survives x hsurv
    · exact hx x hs hpre
  lost := h.lost

theorem Stored.tail (h : Stored config c K ⟨ps, some p⟩) :
    Tail H config c K g ps p.id (.settled (p.body H)) where
  linked := rfl
  current := ⟨[], .inl rfl, (List.append_nil K).symm ▸ h.ending⟩
  survives := by
    intro x hx
    rw [Disk.File.survives_settled.mp hx]
    exact ⟨[], .inl rfl, (List.append_nil K).symm ▸ h.ending⟩
  lost := by simp [File.settled]

/-- An append to the active segment and its sync, given that every part of the
data that may survive can be recovered. -/
theorem Stored.through_append (h : Stored config c K ⟨ps, some p⟩)
    (hx : ∀ r, r <+: data → ∃ tail, AllOrNone g tail ∧
      Ending H config c (K ++ tail) ps p.id (p.body H ++ r)) :
    Through (Interrupted H config c K g) (settledDir H ⟨ps, some p⟩)
        [.append p.id data, .sync p.id] ∧
      run (settledDir H ⟨ps, some p⟩) [.append p.id data, .sync p.id] =
        entries H ps ++ [(p.id, .settled (p.body H ++ data))] := by
  have hf : Tail H config c K g ps p.id (.settled (p.body H)) := h.tail
  have hf' : Tail H config c K g ps p.id ((File.settled (p.body H)).append data) := by
    refine hf.append ?_ List.prefix_rfl
    rintro x ⟨r, rfl⟩ hpre
    exact hx r ((List.prefix_append_right_inj _).mp hpre)
  have hop : apply (settledDir H ⟨ps, some p⟩) (.append p.id data) =
      entries H ps ++ [(p.id, (File.settled (p.body H)).append data)] :=
    Disk.modify_concat hf.fresh fun f => f.append data
  have hop' : apply (entries H ps ++ [(p.id, (File.settled (p.body H)).append data)])
      (.sync p.id) = entries H ps ++ [(p.id, .settled (p.body H ++ data))] :=
    Disk.modify_concat hf.fresh _
  refine ⟨Disk.through_cons.mpr ⟨h.interrupted, ?_⟩, ?_⟩
  · rw [hop]
    refine Disk.through_cons.mpr ⟨.cut hf', Disk.through_nil.mpr ?_⟩
    rw [hop']
    exact .cut hf'.sync
  · show apply (apply _ (.append p.id data)) (.sync p.id) = _
    rw [hop, hop']

theorem Stored.through_seal_active (h : Stored config c K ⟨ps, some p⟩) :
    Through (Interrupted H config c K g) (settledDir H ⟨ps, some p⟩)
        [.append p.id (p.sealBytes H), .sync p.id] ∧
      run (settledDir H ⟨ps, some p⟩) [.append p.id (p.sealBytes H), .sync p.id] =
        settledDir H ⟨ps ++ [p], none⟩ := by
  have hfits := (stored_active.mp h).2.piece.fits
  have hbudget : Layout.sealedSize ⟨ps, some p⟩ + p.bodySize + reservedSealBytes ≤
      config.maxTotalBytes := h.budget
  rw [settledDir_sealed rfl]
  refine h.through_append fun r hr => ⟨[], .inl rfl, ?_⟩
  have hlen : r.length ≤ reservedSealBytes := by simpa using hr.length_le
  rw [List.append_nil]
  by_cases hfull : r.length = reservedSealBytes
  · have hseal : r = p.sealBytes H := hr.eq_of_length (by simpa using hfull)
    exact .sealed p rfl h.close (by rw [hseal]; rfl)
  · refine .body p rfl h r rfl (.inr (.short (Nat.lt_of_le_of_ne hlen hfull))) ?_ ?_ <;>
      rw [List.length_append, Piece.length_body] <;> omega

theorem Stored.through_frame (h : Stored config c K ⟨ps, some p⟩) (hg : GroupOk config g)
    (hp : p.next = K.length + 1) (hK : K.length + g.length + 1 < 2 ^ 64)
    (hfit : p.bodySize + frameSize g + reservedSealBytes ≤ config.segmentBytes)
    (hbudget : Layout.bytes ⟨ps, some p⟩ + frameSize g + reservedSealBytes ≤
      config.maxTotalBytes) :
    Through (Interrupted H config c K g) (settledDir H ⟨ps, some p⟩)
        [.append p.id (frame H p.next g), .sync p.id] ∧
      run (settledDir H ⟨ps, some p⟩) [.append p.id (frame H p.next g), .sync p.id] =
        settledDir H ⟨ps, some (p.push g)⟩ := by
  have hpush := h.push hg hp hK hfit hbudget
  have hsize : Layout.bytes ⟨ps, some p⟩ = Layout.sealedSize ⟨ps, some p⟩ + p.bodySize := rfl
  have hdir : settledDir H ⟨ps, some (p.push g)⟩ =
      entries H ps ++ [(p.id, .settled (p.body H ++ frame H p.next g))] := by
    rw [← Piece.body_push]
    rfl
  rw [hdir]
  refine h.through_append fun r hr => ?_
  have hlen : r.length ≤ frameSize g := by simpa using hr.length_le
  by_cases hfull : r.length = frameSize g
  · have hframe : r = frame H p.next g := hr.eq_of_length (by simpa using hfull)
    rw [hframe, ← Piece.body_push]
    exact ⟨g, .inr rfl, hpush.ending⟩
  · refine ⟨[], .inl rfl, ?_⟩
    rw [List.append_nil]
    have htorn : Torn H config p.bodySize p.next r :=
      .frame g hg (by omega) hfit hr (Nat.lt_of_le_of_ne hlen hfull)
    refine .body p rfl h r rfl (.inr htorn) ?_ ?_ <;>
      rw [List.length_append, Piece.length_body] <;> omega

def startOps (H : Digest) (k first : Nat) : List Io :=
  [.create k, .append k (segmentHeader H k first), .sync k, .syncDir]

theorem Stored.through_start (h : Stored config c K ⟨ps, none⟩)
    (hL : Stored config c K ⟨ps, some ⟨k, first, []⟩⟩)
    (hf : first = contiguous c ps k ∨ first = c + 1) :
    Through (Interrupted H config c K g) (settledDir H ⟨ps, none⟩) (startOps H k first) ∧
      run (settledDir H ⟨ps, none⟩) (startOps H k first) =
        settledDir H ⟨ps, some ⟨k, first, []⟩⟩ := by
  have hend (x : Bytes) (hx : x <+: segmentHeader H k first) : ∃ tail, AllOrNone g tail ∧
      Ending H config c (K ++ tail) ps k x :=
    ⟨[], .inl rfl, .header first ((List.append_nil K).symm ▸ hL) hf hx⟩
  have hfresh : Tail H config c K g ps k .fresh := by
    refine ⟨rfl, hend _ List.nil_prefix, ?_, fun _ => h⟩
    rintro x ⟨-, image, hi, hx⟩
    rw [List.mem_singleton.mp hi] at hx
    exact hend x (hx.trans List.nil_prefix)
  have hheader : Tail H config c K g ps k (File.fresh.append (segmentHeader H k first)) :=
    hfresh.append (fun x _ hx => hend x hx) List.prefix_rfl
  have hdir : settledDir H ⟨ps, none⟩ = entries H ps := List.append_nil _
  have hcreate : apply (settledDir H ⟨ps, none⟩) (.create k) = entries H ps ++ [(k, .fresh)] := by
    rw [hdir]
    rfl
  have happend : apply (entries H ps ++ [(k, .fresh)]) (.append k (segmentHeader H k first)) =
      entries H ps ++ [(k, File.fresh.append (segmentHeader H k first))] :=
    Disk.modify_concat hfresh.fresh fun f => f.append (segmentHeader H k first)
  have hsync : apply (entries H ps ++ [(k, File.fresh.append (segmentHeader H k first))])
      (.sync k) = entries H ps ++ [(k, (File.fresh.append (segmentHeader H k first)).sync)] :=
    Disk.modify_concat hfresh.fresh File.sync
  have hsyncDir : apply (entries H ps ++
      [(k, (File.fresh.append (segmentHeader H k first)).sync)]) .syncDir =
        settledDir H ⟨ps, some ⟨k, first, []⟩⟩ := by
    rw [syncDir_entries rfl, settledDir_active rfl, body_empty]
    rfl
  refine ⟨?_, ?_⟩
  · refine Disk.through_cons.mpr ⟨h.interrupted, ?_⟩
    rw [hcreate]
    refine Disk.through_cons.mpr ⟨.cut hfresh, ?_⟩
    rw [happend]
    refine Disk.through_cons.mpr ⟨.cut hheader, ?_⟩
    rw [hsync]
    refine Disk.through_cons.mpr ⟨.cut hheader.sync, Disk.through_nil.mpr ?_⟩
    rw [hsyncDir]
    exact hL.interrupted
  · simp only [run, startOps, List.foldl_cons, List.foldl_nil]
    rw [hcreate, happend, hsync, hsyncDir]

def Layout.close (L : Layout) : Layout := ⟨L.pieces, none⟩

def sealOps (H : Digest) (L : Layout) : List Io :=
  L.active.toList.flatMap fun p => [.append p.id (p.sealBytes H), .sync p.id]

theorem next_close : L.close.next = L.next := by simp [Layout.next, Layout.close]

theorem Stored.through_seal (h : Stored config c K L) :
    Through (Interrupted H config c K g) (settledDir H L) (sealOps H L) ∧
      run (settledDir H L) (sealOps H L) = settledDir H L.close := by
  obtain ⟨ps, o⟩ := L
  cases o with
  | none =>
    refine ⟨Disk.through_nil.mpr h.interrupted, ?_⟩
    simp [Layout.close, sealOps, run]
  | some p => exact h.through_seal_active

theorem lastId_concat (h : j.segments = ss ++ [s]) : j.lastId = s.id := by
  simp [lastId, h]

theorem lastSequence_concat (h : j.segments = ss ++ [s]) : j.lastSequence = s.last := by
  simp [lastSequence, h]

theorem segments_active : Layout.segments ⟨ps, some p⟩ =
    ps.map sealedSegment ++ [activeSegment p] := rfl

theorem segments_sealed : Layout.segments ⟨ps, none⟩ = ps.map sealedSegment := List.append_nil _

theorem Matches.sealActive (h : Matches H config root K L j) :
    ∃ j', j.sealActive H = (sealOps H L, j') ∧ Matches H config root K L.close j' ∧
      j'.nextSegmentId = j.nextSegmentId ∧ j'.checkpointSequence = j.checkpointSequence := by
  obtain ⟨ps, o⟩ := L
  have hactive := h.active
  have hsegments := h.segments
  cases o with
  | none =>
    refine ⟨j, ?_, ?_, rfl, rfl⟩
    · rw [Journal.sealActive, hactive]
      rfl
    · have : Layout.close ⟨ps, none⟩ = ⟨ps, none⟩ := by simp [Layout.close]
      rw [this]
      exact h
  | some p =>
    rw [segments_active] at hsegments
    have hid : j.lastId = p.id := lastId_concat hsegments
    have hlast : j.lastSequence + 1 = p.next := by
      rw [lastSequence_concat hsegments]
      exact (stored_active.mp h.stored).2.piece.last_succ.symm
    refine ⟨{ j with
      active := none
      segments := ps.map sealedSegment ++ [sealedSegment p]
      diskBytes := j.diskBytes + reservedSealBytes }, ?_, { h with
      stored := h.stored.close
      segments := ?_
      active := rfl
      ids := ?_
      frontier := ?_
      bytes := ?_ }, rfl, rfl⟩
    · rw [Journal.sealActive, hactive]
      simp only [Option.map_some, hid, hlast, hsegments, setLast_concat]
      rfl
    · simp only [Layout.close, pieces_active, segments_sealed, List.map_append]
      rfl
    · have := h.ids
      simpa [Layout.close] using this
    · rw [next_close]
      exact h.frontier
    · show j.diskBytes + reservedSealBytes = _
      rw [h.bytes, Layout.close, pieces_active, bytes_concat]

-- Appending a group

def reserve (j : Journal) (rotate : Bool) : Nat :=
  if rotate then
    headerBytes + reservedSealBytes + (if j.active.isSome then reservedSealBytes else 0)
  else reservedSealBytes

/-- What `append_plan` checks. -/
structure Admitted (j : Journal) (records : List Bytes) (checkCapacity : Bool) : Prop where
  group : GroupOk j.config records
  next : j.nextSequence + records.length < 2 ^ 64
  ids : j.mustRotate (frameSize records) = true → j.nextSegmentId + 1 < 2 ^ 64
  count : checkCapacity = true → j.mustRotate (frameSize records) = true →
    j.segments.length < j.config.maxSegments
  bytes : checkCapacity = true →
    j.diskBytes + frameSize records + reserve j (j.mustRotate (frameSize records)) ≤
      j.config.maxTotalBytes

def planned (j : Journal) (records : List Bytes) : AppendPlan where
  size := frameSize records
  next := j.nextSequence + records.length
  rotate := j.mustRotate (frameSize records)
  growth := frameSize records + reserve j (j.mustRotate (frameSize records)) - reservedSealBytes

theorem appendPlan_ok : j.appendPlan records checkCapacity = .ok plan ↔
    Admitted j records checkCapacity ∧ plan = planned j records := by
  simp only [appendPlan, ensure_bind]
  constructor
  · rintro ⟨⟨hne, hcount⟩, hrecord, hsize, hnext, hids, hsegments, hbytes, hplan⟩
    cases hplan
    exact ⟨⟨⟨hne, hcount, hrecord, hsize⟩, hnext, hids, hsegments, hbytes⟩, rfl⟩
  · rintro ⟨⟨⟨hne, hcount, hrecord, hsize⟩, hnext, hids, hsegments, hbytes⟩, rfl⟩
    exact ⟨⟨hne, hcount⟩, hrecord, hsize, hnext, hids, hsegments, hbytes, rfl⟩

theorem Matches.writeFrame (h : Matches H config root K ⟨ps, some p⟩ j)
    (hL : Stored config root (K ++ g) ⟨ps, some (p.push g)⟩)
    (hp : p.next = K.length + 1) (hK : K.length + g.length + 1 < 2 ^ 64) :
    ∃ j', j.writeFrame (frame H p.next g) (K.length + 1 + g.length) =
        ([.append p.id (frame H p.next g), .sync p.id], j') ∧
      Matches H config root (K ++ g) ⟨ps, some (p.push g)⟩ j' := by
  have hsegments := h.segments
  rw [segments_active] at hsegments
  have hid : j.lastId = p.id := lastId_concat hsegments
  refine ⟨{ j with
    active := some ⟨p.bodySize + frameSize g, p.body H ++ frame H p.next g⟩
    segments := ps.map sealedSegment ++
      [⟨p.id, p.bodySize + frameSize g, p.first, K.length + g.length⟩]
    diskBytes := j.diskBytes + frameSize g
    nextSequence := K.length + 1 + g.length
    durableSequence := K.length + g.length }, ?_, { h with
    stored := hL
    segments := ?_
    active := ?_
    next := ?_
    durable := ?_
    ids := ?_
    bound := ?_
    frontier := ?_
    bytes := ?_ }⟩
  · have hlast : K.length + 1 + g.length - 1 = K.length + g.length := by omega
    simp only [Journal.writeFrame, hid, h.active, hsegments, setLast_concat, length_frame,
      Option.map_some, hlast]
    rfl
  · have hlast : (p.push g).next - 1 = K.length + g.length := by
      rw [Piece.next_push, hp]
      omega
    rw [segments_active, activeSegment, hlast, Piece.bodySize_push]
    rfl
  · rw [Option.map_some, Piece.bodySize_push, Piece.body_push]
  · show K.length + 1 + g.length = (K ++ g).length + 1
    rw [List.length_append]
    omega
  · rw [List.length_append]
  · have := h.ids
    simpa [NextId, Piece.push] using this
  · rw [List.length_append]
    omega
  · have hfloor := h.floor
    have hroot := h.stored.checkpoint_le
    show max _ (j.checkpointSequence + 1) = _
    rw [next_active, Piece.next_push, hp, List.length_append]
    omega
  · show j.diskBytes + frameSize g = _
    rw [h.bytes, bytes_active, bytes_active, Piece.bodySize_push, Nat.add_assoc]

theorem Matches.start (h : Matches H config root K ⟨ps, none⟩ j)
    (hL : Stored config root K ⟨ps, some ⟨j.nextSegmentId, K.length + 1, []⟩⟩)
    (hid : j.nextSegmentId + 1 < 2 ^ 64) :
    Matches H config root K ⟨ps, some ⟨j.nextSegmentId, K.length + 1, []⟩⟩
      { j with
        active := some ⟨headerBytes, segmentHeader H j.nextSegmentId j.nextSequence⟩
        segments := j.segments ++
          [⟨j.nextSegmentId, headerBytes, j.nextSequence, j.nextSequence - 1⟩]
        nextSegmentId := j.nextSegmentId + 1
        diskBytes := j.diskBytes + headerBytes } :=
  { h with
    stored := hL
    segments := by
      rw [segments_active, ← segments_sealed, ← h.segments, h.next]
      rfl
    active := by
      rw [h.next, Option.map_some, body_empty]
      rfl
    ids := .inl (by simp)
    id_lt := hid
    frontier := by
      have hfloor := h.floor
      have hroot := h.stored.checkpoint_le
      show max (Layout.next ⟨ps, some ⟨j.nextSegmentId, K.length + 1, []⟩⟩)
        (j.checkpointSequence + 1) = _
      rw [next_active]
      show max (K.length + 1) _ = _
      omega
    bytes := by
      show j.diskBytes + headerBytes = _
      rw [h.bytes, bytes_active]
      rfl }

theorem Matches.mustRotate_eq_false (h : Matches H config root K L j)
    (hr : j.mustRotate size = false) : ∃ ps p, L = ⟨ps, some p⟩ ∧ p.next = K.length + 1 ∧
      p.bodySize + size + reservedSealBytes ≤ config.segmentBytes := by
  obtain ⟨ps, o⟩ := L
  cases o with
  | none => simp [mustRotate, h.active] at hr
  | some p =>
    have hsegments := h.segments
    rw [segments_active] at hsegments
    have hlast : j.lastSequence + 1 = p.next := by
      rw [lastSequence_concat hsegments]
      exact (stored_active.mp h.stored).2.piece.last_succ.symm
    simp only [mustRotate, h.active, Option.map_some, hlast, h.next, h.config_eq,
      Bool.or_eq_false_iff, decide_eq_false_iff_not, bne_eq_false_iff_eq, not_lt, gt_iff_lt] at hr
    exact ⟨ps, p, rfl, hr.2, hr.1⟩

theorem length_segments : L.segments.length = L.pieces.length := by
  simp [Layout.segments, Layout.pieces]

theorem Matches.rotate (hv : config.Valid) (h : Matches H config root K L j)
    (hid : j.nextSegmentId + 1 < 2 ^ 64) (hcount : j.segments.length < config.maxSegments)
    (hbudget : j.diskBytes + reserve j true ≤ config.maxTotalBytes) :
    ∃ p j', j.rotate H = (sealOps H L ++ startOps H p.id p.first, j') ∧
      p = ⟨j.nextSegmentId, K.length + 1, []⟩ ∧ Matches H config root K ⟨L.pieces, some p⟩ j' ∧
      j'.diskBytes + reservedSealBytes = j.diskBytes + reserve j true ∧
      Through (Interrupted H config root K g) (settledDir H L)
        (sealOps H L ++ startOps H p.id p.first) ∧
      run (settledDir H L) (sealOps H L ++ startOps H p.id p.first) =
        settledDir H ⟨L.pieces, some p⟩ := by
  obtain ⟨j₁, hseal, hj₁, hnext, -⟩ := h.sealActive
  have hdisk : j₁.diskBytes + headerBytes + reservedSealBytes = j.diskBytes + reserve j true := by
    have hb : j₁.diskBytes = j.diskBytes + if j.active.isSome then reservedSealBytes else 0 := by
      have := congrArg (fun r => r.2.diskBytes) hseal
      rw [← this, Journal.sealActive]
      cases j.active <;> rfl
    rw [reserve, if_pos rfl]
    omega
  have hbytes : L.close.bytes + headerBytes + reservedSealBytes ≤ config.maxTotalBytes := by
    rw [← hj₁.bytes, hdisk]
    exact hbudget
  have hids : NextId root L.pieces j.nextSegmentId := h.ids
  have hclose : Stored config root K ⟨L.pieces, none⟩ := hj₁.stored
  have hstart := hclose.start hv hids hid h.bound
    (by rw [← length_segments, ← h.segments]; exact hcount)
    hbytes
  have hfirst := hclose.first_eq hids
  obtain ⟨hthrough, hrun⟩ := h.stored.through_seal (H := H) (g := g)
  obtain ⟨hthrough', hrun'⟩ := hclose.through_start (H := H) (g := g) hstart hfirst
  refine ⟨_, _, ?_, rfl, (hnext ▸ hj₁.start (hnext.symm ▸ hstart) (hnext.symm ▸ hid)),
    hdisk, ?_, ?_⟩
  · rw [Journal.rotate, hseal]
    simp only [hj₁.next, hnext]
    rfl
  · exact hthrough.append (hrun ▸ hthrough')
  · rw [Disk.run_append, hrun]
    exact hrun'

theorem Matches.appendFrame (h : Matches H config root K ⟨ps, some p⟩ j) (hg : GroupOk config g)
    (hp : p.next = K.length + 1) (hK : K.length + g.length + 1 < 2 ^ 64)
    (hfit : p.bodySize + frameSize g + reservedSealBytes ≤ config.segmentBytes)
    (hbudget : j.diskBytes + frameSize g + reservedSealBytes ≤ config.maxTotalBytes) :
    ∃ ops j' L', j.writeFrame (frame H (K.length + 1) g) (K.length + 1 + g.length) = (ops, j') ∧
      Matches H config root (K ++ g) L' j' ∧
      Through (Interrupted H config root K g) (settledDir H ⟨ps, some p⟩) ops ∧
      run (settledDir H ⟨ps, some p⟩) ops = settledDir H L' := by
  rw [h.bytes] at hbudget
  obtain ⟨j', hw, hj'⟩ := h.writeFrame (h.stored.push hg hp hK hfit hbudget) hp hK
  rw [hp] at hw
  refine ⟨_, j', _, hw, hj', ?_⟩
  rw [← hp]
  exact h.stored.through_frame hg hp hK hfit hbudget

theorem Matches.appendGroup (hv : config.Valid) (h : Matches H config root K L j)
    (ha : j.appendGroup H g = .ok (ops, j', receipt)) :
    ∃ L', Matches H config root (K ++ g) L' j' ∧
      Through (Interrupted H config root K g) (settledDir H L) ops ∧
      run (settledDir H L) ops = settledDir H L' := by
  obtain ⟨plan, hplan, ha⟩ := Result.bind_ok.mp ha
  obtain ⟨hadm, rfl⟩ := appendPlan_ok.mp hplan
  have hg : GroupOk config g := h.config_eq ▸ hadm.group
  have hK : K.length + g.length + 1 < 2 ^ 64 := by
    have := hadm.next
    rw [h.next] at this
    omega
  have hbytes := hadm.bytes rfl
  have hcount := hadm.count rfl
  have hids := hadm.ids
  have hencode : encode H g (frameSize g) (K.length + 1) (K.length + 1 + g.length - 1) =
      frame H (K.length + 1) g := rfl
  simp only [planned, h.next, hencode] at ha
  rw [h.config_eq] at hbytes hcount
  cases hr : j.mustRotate (frameSize g) with
  | false =>
    rw [hr] at ha hbytes
    obtain ⟨ps, p, rfl, hp, hfit⟩ := h.mustRotate_eq_false hr
    obtain ⟨ops', j₁, L', hw, hj₁, hthrough, hrun⟩ := h.appendFrame hg hp hK hfit hbytes
    simp only [Bool.false_eq_true, if_false, hw] at ha
    cases ha
    exact ⟨L', hj₁, hthrough, hrun⟩
  | true =>
    rw [hr] at ha hbytes
    obtain ⟨p, j₁, hrotate, rfl, hj₁, hdisk, hthrough, hrun⟩ :=
      h.rotate (g := g) hv (hids hr) (hcount hr)
      (by omega)
    have hfit : headerBytes + frameSize g + reservedSealBytes ≤ config.segmentBytes := by
      have hsegment := hv.segment.1
      have hsize := hg.size
      simp only [JournalConfig.minimum] at hsegment
      omega
    obtain ⟨ops', j₂, L', hw, hj₂, hthrough', hrun'⟩ :=
      hj₁.appendFrame hg rfl hK hfit (by omega)
    simp only [if_true, hrotate, hw] at ha
    cases ha
    refine ⟨L', hj₂, hthrough.append (hrun ▸ hthrough'), ?_⟩
    rw [Disk.run_append, hrun, hrun']

-- Retiring segments

/-- Segments in the order of their ids: linked ones, unlinked ones, and linked
ones that stay. -/
def marked (A F B : List Piece) : List (Piece × Bool) :=
  A.map (·, true) ++ F.map (·, false) ++ B.map (·, true)

theorem map_fst_marked : (marked A F B).map Prod.fst = A ++ F ++ B := by
  simp [marked, Function.comp_def]

theorem visible_marked : visible (marked [] F B) = B := by
  have hF : visible (F.map (·, false)) = [] := by simp [visible, List.filter_map, Function.comp_def]
  have hB : visible (B.map (·, true)) = B := visible_map_linked
  simp only [marked, visible, List.map_nil, List.nil_append, List.filter_append,
    List.map_append] at hF hB ⊢
  rw [hF, hB, List.nil_append]

theorem mem_marked {k : Piece × Bool} (hk : k ∈ marked A F B) (hl : k.2 = false) : k.1 ∈ F := by
  simp only [marked, List.mem_append, List.mem_map] at hk
  rcases hk with (⟨p, -, rfl⟩ | ⟨p, hp, rfl⟩) | ⟨p, -, rfl⟩
  · cases hl
  · exact hp
  · cases hl

variable {o : Option Piece}

theorem retired_marked (hF : ∀ p ∈ F, p.next ≤ c + 1)
    (ha : 0 < c ∨ (A ++ F ++ B).length = 1 ∧ o = none) : Retired c (marked A F B) o := by
  refine ⟨fun k hk hl => hF _ (mem_marked hk hl), fun k _ _ => ?_⟩
  rw [← map_fst_marked, List.length_map] at ha
  exact ha

/-- The directory with the segments of `F` unlinked. -/
def markedDir (H : Digest) (A F B : List Piece) (o : Option Piece) : Directory :=
  (marked A F B).map (sealedEntry H) ++ o.toList.map (activeEntry H)

theorem markedDir_nil : markedDir H A [] B o = settledDir H ⟨A ++ B, o⟩ := by
  simp only [markedDir, marked, settledDir, entries, List.map_append, List.map_nil,
    List.append_nil, List.map_map]
  rfl

theorem keys_markedDir :
    (markedDir H A F B o).map Prod.fst = (A ++ F ++ B ++ o.toList).map Piece.id := by
  simp [markedDir, marked, Function.comp_def, sealedEntry, activeEntry]

theorem apply_unlink
    (hs : ((A ++ [a] ++ F ++ B ++ o.toList).map Piece.id).Nodup) :
    apply (markedDir H (A ++ [a]) F B o) (.unlink a.id) = markedDir H A (a :: F) B o := by
  let d := (A.map (·, true)).map (sealedEntry H)
  let e := (F.map (·, false) ++ B.map (·, true)).map (sealedEntry H) ++
    o.toList.map (activeEntry H)
  have hbefore : markedDir H (A ++ [a]) F B o = d ++ sealedEntry H (a, true) :: e := by
    simp [markedDir, marked, d, e]
  have hafter : markedDir H A (a :: F) B o = d ++ sealedEntry H (a, false) :: e := by
    simp [markedDir, marked, d, e]
  rw [← keys_markedDir (H := H), hbefore] at hs
  rw [hbefore, hafter]
  exact Disk.modify_middle hs fun f => { f with linked := false }

theorem through_unlink {P : Directory → Prop}
    (hs : (A ++ F ++ B ++ o.toList).Pairwise fun p q => p.id < q.id)
    (hP : ∀ A' F', A' ++ F' = A ++ F → P (markedDir H A' F' B o)) :
    Through P (markedDir H A F B o) (A.reverse.map fun p => .unlink p.id) ∧
      run (markedDir H A F B o) (A.reverse.map fun p => .unlink p.id) =
        markedDir H [] (A ++ F) B o := by
  induction A using List.reverseRecOn generalizing F with
  | nil => exact ⟨Disk.through_nil.mpr (hP [] F rfl), rfl⟩
  | append_singleton A a ih =>
    have hnodup : ((A ++ [a] ++ F ++ B ++ o.toList).map Piece.id).Nodup :=
      (List.pairwise_map.mpr hs).imp fun h => Nat.ne_of_lt h
    have hop := apply_unlink (H := H) hnodup
    have hstart := hP _ _ rfl
    have hassoc : A ++ [a] ++ F = A ++ a :: F := by simp
    rw [hassoc] at hs hP ⊢
    obtain ⟨hthrough, hrun⟩ := ih hs hP
    rw [List.reverse_append, List.reverse_singleton, List.singleton_append, List.map_cons]
    refine ⟨Disk.through_cons.mpr ⟨hstart, hop ▸ hthrough⟩, ?_⟩
    show run (apply _ _) _ = _
    rw [hop, hrun]

def retireOps (A : List Piece) : List Io := (A.reverse.map fun p => .unlink p.id) ++ [.syncDir]

theorem through_retire {P : Directory → Prop}
    (hs : (A ++ B ++ o.toList).Pairwise fun p q => p.id < q.id)
    (hP : ∀ A' F', A' ++ F' = A → P (markedDir H A' F' B o)) (hB : P (settledDir H ⟨B, o⟩)) :
    Through P (settledDir H ⟨A ++ B, o⟩) (retireOps A) ∧
      run (settledDir H ⟨A ++ B, o⟩) (retireOps A) = settledDir H ⟨B, o⟩ := by
  have hA : A ++ [] = A := List.append_nil A
  obtain ⟨hthrough, hrun⟩ := through_unlink (H := H) (F := []) (hA.symm ▸ hs) (hA.symm ▸ hP)
  rw [hA] at hrun
  have hdir : apply (markedDir H [] A B o) .syncDir = settledDir H ⟨B, o⟩ := by
    rw [markedDir, syncDir_kept, visible_marked]
  rw [← markedDir_nil, retireOps]
  refine ⟨hthrough.append ?_, ?_⟩
  · rw [hrun]
    refine Disk.through_cons.mpr ⟨hP [] A rfl, Disk.through_nil.mpr ?_⟩
    rw [hdir]
    exact hB
  · rw [Disk.run_append, hrun]
    exact hdir

theorem Stored.through_retire (h : Stored config c K ⟨A ++ B, o⟩)
    (hcovered : ∀ p ∈ A, p.next ≤ c + 1) (ha : 0 < c ∨ (A ++ B).length = 1 ∧ o = none) :
    Stored config c K ⟨B, o⟩ ∧
      Through (Interrupted H config c K g) (settledDir H ⟨A ++ B, o⟩) (retireOps A) ∧
      run (settledDir H ⟨A ++ B, o⟩) (retireOps A) = settledDir H ⟨B, o⟩ := by
  have hr : Retired c (marked [] A B) o := retired_marked hcovered (by simpa using ha)
  have hL : Stored config c K ⟨(marked [] A B).map Prod.fst, o⟩ := by
    rw [map_fst_marked]
    exact h
  have hB := hL.visible hr
  rw [visible_marked] at hB
  refine ⟨hB, Journal.through_retire h.sorted ?_ hB.interrupted⟩
  rintro A' F' rfl
  refine .kept _ _ (map_fst_marked ▸ h) (retired_marked ?_ ha)
  exact fun p hp => hcovered p (List.mem_append_right _ hp)

/-- The segments that `reclaim_through` finds covered. -/
def covered (j : Journal) (checkpointSequence : Nat) : Nat :=
  (j.segments.takeWhile fun s => decide (s.last ≤ checkpointSequence)).length

/-- The segments that `reclaim_through` removes. -/
def retires (j : Journal) (checkpointSequence : Nat) : Nat :=
  if checkpointSequence = 0 ∧ j.covered checkpointSequence < j.segments.length then 0
  else j.covered checkpointSequence

theorem Matches.frontier_raise (h : Matches H config root K L j) (hj : j.checkpointSequence ≤ c)
    (hd : c ≤ j.durableSequence) : max L.next (c + 1) = K.length + 1 := by
  have hfrontier := h.frontier
  rw [h.durable] at hd
  omega

theorem Matches.retire (h : Matches H config root K ⟨A ++ B, o⟩ j)
    (hB : Stored config root K ⟨B, o⟩) (hids : NextId root (B ++ o.toList) k) (hk : k < 2 ^ 64)
    (hA : ∀ p ∈ A, p.next ≤ c + 1) (hj : j.checkpointSequence ≤ c) (hd : c ≤ j.durableSequence)
    (hc : c ≤ root) (hn : n = A.length) :
    Matches H config root K ⟨B, o⟩
      { j with
        segments := j.segments.drop n
        nextSegmentId := k
        diskBytes := j.diskBytes - ((j.segments.take n).map Segment.len).sum
        checkpointSequence := c } := by
  have hsegments : j.segments = A.map sealedSegment ++ Layout.segments ⟨B, o⟩ := by
    rw [h.segments, Layout.segments, Layout.segments, List.map_append, List.append_assoc]
  have hn : n = (A.map sealedSegment).length := by rw [hn, List.length_map]
  have htake : j.segments.take n = A.map sealedSegment := by
    rw [hsegments, List.take_left' hn.symm]
  have hdrop : j.segments.drop n = Layout.segments ⟨B, o⟩ := by
    rw [hsegments, List.drop_left' hn.symm]
  exact { h with
    stored := hB
    segments := hdrop
    ids := hids
    id_lt := hk
    floor := hc
    frontier := by
      have hchain : Chain root 0 1 ((marked [] A B).map Prod.fst ++ o.toList) := by
        rw [map_fst_marked]
        exact h.stored.chain
      have hvisible := max_endNext_visible hchain fun k hk hl => hA _ (mem_marked hk hl)
      rw [visible_marked, map_fst_marked] at hvisible
      exact hvisible.trans (h.frontier_raise hj hd)
    bytes := by
      have hsum : Layout.bytes ⟨A ++ B, o⟩ =
          ((A.map sealedSegment).map Segment.len).sum + Layout.bytes ⟨B, o⟩ := by
        simp only [Layout.bytes, Layout.sealedSize, List.map_append, List.sum_append,
          List.map_map, Nat.add_assoc]
        rfl
      show j.diskBytes - ((j.segments.take n).map Segment.len).sum = _
      rw [htake, h.bytes, hsum, Nat.add_sub_cancel_left] }

theorem take_covered : ∀ s ∈ j.segments.take (j.covered c), s.last ≤ c := by
  intro s hs
  rw [covered, ← List.prefix_iff_eq_take.mp (List.takeWhile_prefix _)] at hs
  simpa using List.mem_takeWhile_imp hs

theorem covered_le : j.covered c ≤ j.segments.length :=
  (List.takeWhile_prefix _).length_le

theorem NextId.pos (h : NextId c ps k) : 0 < k := by
  rcases h with rfl | ⟨-, -, hk⟩
  · exact Nat.succ_pos _
  · exact hk

theorem endId_eq (h : ps ≠ []) : endId i ps = endId i' ps := by
  cases ps with
  | nil => exact absurd rfl h
  | cons p ps => rw [endId_cons, endId_cons]

theorem NextId.of_append (h : NextId c (ps ++ qs) k) (hq : qs ≠ []) : NextId c qs k := by
  rcases h with rfl | ⟨hnil, -⟩
  · rw [endId_append]
    exact .inl (congrArg (· + 1) (endId_eq hq))
  · exact absurd (List.append_eq_nil_iff.mp hnil).2 hq

theorem reclaimThrough_bounds (hr : j.reclaimThrough H c = .ok (ops, j')) :
    j.checkpointSequence ≤ c ∧ c ≤ j.durableSequence := by
  simp only [Journal.reclaimThrough, ensure_bind] at hr
  exact ⟨hr.1, hr.2.1⟩

theorem reclaimThrough_ok (hr : j.reclaimThrough H c = .ok (ops, j'))
    (hcond : ¬(j.covered c = 0 ∨ c = 0 ∧ j.covered c < j.segments.length)) :
    ∃ ops₁ j₁, (ops₁, j₁) =
        (if j.covered c = j.segments.length then j.sealActive H else ([], j)) ∧
      ops = ops₁ ++ ((j₁.segments.take (j.covered c)).reverse.map (fun s => .unlink s.id) ++
        [.syncDir]) ∧
      j' = { j₁ with
        segments := j₁.segments.drop (j.covered c)
        nextSegmentId := if c = 0 then 1 else j₁.nextSegmentId
        diskBytes := j₁.diskBytes - ((j₁.segments.take (j.covered c)).map Segment.len).sum
        checkpointSequence := c } := by
  simp only [Journal.reclaimThrough, ensure_bind] at hr
  obtain ⟨-, -, hr⟩ := hr
  split at hr
  · exact absurd ‹_› hcond
  · cases hr
    exact ⟨_, _, rfl, List.append_assoc _ _ _, rfl⟩

theorem sealed_covered {ps : List Piece} (hs : ∀ s ∈ ps.map sealedSegment, s.last ≤ c) :
    ∀ p ∈ ps, p.next ≤ c + 1 := by
  intro p hp
  have : p.next - 1 ≤ c := hs _ (List.mem_map_of_mem hp)
  omega

theorem pieces_covered (hs : ∀ s ∈ L.segments, s.last ≤ c) : ∀ p ∈ L.pieces, p.next ≤ c + 1 := by
  intro p hp
  have hmap : L.segments.map Segment.last = L.pieces.map fun p => p.next - 1 := by
    simp only [Layout.segments, Layout.pieces, List.map_append, List.map_map]
    rfl
  have hmem : p.next - 1 ∈ L.segments.map Segment.last := by
    rw [hmap]
    exact List.mem_map_of_mem hp
  obtain ⟨s, hmem, hlast⟩ := List.mem_map.mp hmem
  have := hs s hmem
  omega

theorem map_unlink_sealed : (ps.map sealedSegment).reverse.map (fun s => Disk.Op.unlink s.id) ++
    [.syncDir] = retireOps ps := by
  rw [retireOps, ← List.map_reverse, List.map_map]
  rfl

theorem segments_covered (hc : j.covered c = j.segments.length)
    (h : Matches H config root K L j) : ∀ p ∈ L.pieces, p.next ≤ c + 1 := by
  have hlast : ∀ s ∈ j.segments.take (j.covered c), s.last ≤ c := take_covered
  rw [hc, List.take_length, h.segments] at hlast
  exact pieces_covered hlast

theorem Matches.reclaimAll {P : Directory → Prop} (h : Matches H config root K L j)
    (hc : c ≤ root) (hr : j.reclaimThrough H c = .ok (ops, j')) (hpos : j.covered c ≠ 0)
    (hall : j.covered c = j.segments.length) (hB : Stored config root K ⟨[], none⟩)
    (hP : ∀ d, Interrupted H config root K g d → P d)
    (hthrough : Through P (settledDir H ⟨L.pieces, none⟩) (retireOps L.pieces)) :
    Matches H config root K ⟨[], none⟩ j' ∧ Through P (settledDir H L) ops ∧
      run (settledDir H L) ops = settledDir H ⟨[], none⟩ := by
  obtain ⟨hfloor, hdurable⟩ := reclaimThrough_bounds hr
  obtain ⟨ops₁, j₁, hj₁, rfl, rfl⟩ := reclaimThrough_ok hr (by omega)
  rw [if_pos hall] at hj₁
  obtain ⟨j₂, hseal, hm, hnext, hfloor'⟩ := h.sealActive
  obtain ⟨rfl, rfl⟩ := Prod.mk.inj (hj₁.trans hseal)
  have hn : j.covered c = L.pieces.length := by rw [hall, h.segments, length_segments]
  have htake : j₁.segments.take (j.covered c) = L.pieces.map sealedSegment := by
    rw [hm.segments, Layout.close, segments_sealed, hn, ← List.length_map sealedSegment,
      List.take_length]
  have hk : (if c = 0 then 1 else j₁.nextSegmentId) < 2 ^ 64 := by
    split
    · decide
    · exact hm.id_lt
  have hids : NextId root ([] ++ (none : Option Piece).toList)
      (if c = 0 then 1 else j₁.nextSegmentId) := by
    split
    · exact .inl rfl
    · exact .inr ⟨rfl, by omega, hm.ids.pos⟩
  have hclose : L.close = ⟨L.pieces ++ [], none⟩ := by rw [List.append_nil, Layout.close]
  have hdurable' : c ≤ j₁.durableSequence := by
    rw [hm.durable, ← h.durable]
    exact hdurable
  obtain ⟨hsealed, hrun⟩ := h.stored.through_seal (H := H) (g := g)
  rw [hclose] at hm
  obtain ⟨-, hrun'⟩ := through_retire (H := H) (A := L.pieces) (B := []) (o := none)
    (P := fun _ => True) (by simpa using h.stored.sorted) (fun _ _ _ => trivial) trivial
  rw [List.append_nil] at hrun'
  refine ⟨hm.retire hB hids hk (segments_covered hall h) (hfloor' ▸ hfloor) hdurable' hc hn, ?_,
    ?_⟩ <;> rw [htake, map_unlink_sealed]
  · exact (hsealed.mono hP).append (hrun ▸ hthrough)
  · rw [Disk.run_append, hrun, Layout.close, hrun']

/-- `reclaim_through`, at a checkpoint that is durable. At floor zero it must
not retire several segments at once. -/
theorem Matches.reclaimThrough (h : Matches H config root K L j) (hc : c ≤ root)
    (hsafe : c = 0 → j.retires c ≤ 1) (hr : j.reclaimThrough H c = .ok (ops, j')) :
    ∃ L', Matches H config root K L' j' ∧
      Through (Interrupted H config root K g) (settledDir H L) ops ∧
      run (settledDir H L) ops = settledDir H L' := by
  have hlast : ∀ s ∈ j.segments.take (j.covered c), s.last ≤ c := take_covered
  have hle : j.covered c ≤ j.segments.length := covered_le
  obtain ⟨hfloor, hdurable⟩ := reclaimThrough_bounds hr
  by_cases hcond : j.covered c = 0 ∨ c = 0 ∧ j.covered c < j.segments.length
  · simp only [Journal.reclaimThrough, ensure_bind] at hr
    obtain ⟨-, -, hr⟩ := hr
    split at hr
    · cases hr
      exact ⟨L, { h with floor := hc, frontier := h.frontier_raise hfloor hdurable },
        Disk.through_nil.mpr h.stored.interrupted, rfl⟩
    · exact absurd hcond ‹_›
  have hlen : j.segments.length = L.pieces.length := by rw [h.segments, length_segments]
  by_cases hall : j.covered c = j.segments.length
  · have hauth : 0 < root ∨ (L.pieces ++ []).length = 1 ∧ (none : Option Piece) = none := by
      rcases Nat.eq_zero_or_pos c with hzero | hpos
      · have hone := hsafe hzero
        rw [retires, if_neg (by omega)] at hone
        rw [List.append_nil]
        exact .inr ⟨by omega, rfl⟩
      · exact .inl (by omega)
    have hclosed : Stored config root K ⟨L.pieces ++ [], none⟩ := by
      obtain ⟨j₂, -, hm, -⟩ := h.sealActive
      exact (List.append_nil L.pieces).symm ▸ hm.stored
    obtain ⟨hB, hthrough, -⟩ := hclosed.through_retire (H := H) (g := g)
      (fun p hp => (segments_covered hall h p hp).trans (Nat.succ_le_succ hc)) hauth
    rw [List.append_nil] at hthrough
    exact ⟨_, h.reclaimAll hc hr (fun hzero => hcond (.inl hzero)) hall hB
      (fun _ hd => hd) hthrough⟩
  · -- what is left keeps the last segment
    obtain ⟨ops₁, j₁, hj₁, rfl, rfl⟩ := reclaimThrough_ok hr hcond
    rw [if_neg hall] at hj₁
    cases hj₁
    obtain ⟨ps, o⟩ := L
    have hcpos : 0 < c := by omega
    have hn : j.covered c ≤ ps.length := by
      rw [hlen] at hle hall
      cases o with
      | none => simpa using hle
      | some p =>
        rw [pieces_active, List.length_append, List.length_singleton] at hle hall
        omega
    have hsplit : ps.take (j.covered c) ++ ps.drop (j.covered c) = ps := List.take_append_drop _ _
    have htake : j.segments.take (j.covered c) = (ps.take (j.covered c)).map sealedSegment := by
      rw [h.segments, Layout.segments, List.take_append_of_le_length (by simpa using hn),
        List.map_take]
    have hrest : ps.drop (j.covered c) ++ o.toList ≠ [] := by
      intro hnil
      have hzero := congrArg List.length hnil
      have hsum : j.segments.length = ps.length + o.toList.length := hlen.trans List.length_append
      simp only [List.length_append, List.length_drop, List.length_nil] at hzero
      omega
    have hids : NextId root (ps.drop (j.covered c) ++ o.toList)
        (if c = 0 then 1 else j.nextSegmentId) := by
      rw [if_neg (by omega)]
      have := h.ids
      rw [Layout.pieces, ← hsplit, List.append_assoc] at this
      exact this.of_append hrest
    have hk : (if c = 0 then 1 else j.nextSegmentId) < 2 ^ 64 := by
      rw [if_neg (by omega)]
      exact h.id_lt
    have hm : Matches H config root K
        ⟨ps.take (j.covered c) ++ ps.drop (j.covered c), o⟩ j := hsplit.symm ▸ h
    have hA := sealed_covered (htake ▸ hlast)
    obtain ⟨hB, hthrough, hrun⟩ := hm.stored.through_retire (H := H) (g := g)
      (fun p hp => (hA p hp).trans (Nat.succ_le_succ hc)) (.inl (by omega))
    rw [hsplit] at hthrough hrun
    refine ⟨⟨ps.drop (j.covered c), o⟩,
      hm.retire hB hids hk hA hfloor hdurable hc (by simpa using hn), ?_, ?_⟩ <;>
      rw [htake, map_unlink_sealed]
    · exact hthrough
    · exact hrun

theorem Matches.reclaimThrough_any (h : Matches H config root K L j) (hc : c ≤ root)
    (hr : j.reclaimThrough H c = .ok (ops, j')) :
    ∃ L', Matches H config root K L' j' ∧
      Through (fun d => Interrupted H config root K g d ∨ root = 0 ∧ K = [] ∧ Emptied H config d)
        (settledDir H L) ops ∧
      run (settledDir H L) ops = settledDir H L' := by
  by_cases hsafe : c = 0 → j.retires c ≤ 1
  · obtain ⟨L', hm, hthrough, hrun⟩ := h.reclaimThrough (g := g) hc hsafe hr
    exact ⟨L', hm, hthrough.mono fun _ hd => .inl hd, hrun⟩
  obtain ⟨rfl, hmany⟩ := Classical.not_imp.mp hsafe
  obtain ⟨hpos, hall⟩ : j.covered 0 ≠ 0 ∧ j.covered 0 = j.segments.length := by
    have := covered_le (j := j) (c := 0)
    unfold retires at hmany
    split at hmany <;> omega
  have hcovered := segments_covered hall h
  have hfrontier := h.frontier
  have hzero := (reclaimThrough_bounds hr).1
  have hnext : L.next ≤ 1 := endNext_le (Nat.le_refl 1) hcovered
  have hroot := h.stored.checkpoint_le
  obtain rfl : K = [] := List.length_eq_zero_iff.mp (by omega)
  obtain rfl : root = 0 := Nat.le_zero.mp hroot
  obtain ⟨j₂, -, hm, -⟩ := h.sealActive
  refine ⟨_, h.reclaimAll (g := g) hc hr hpos hall stored_empty (fun _ hd => .inl hd) ?_⟩
  have hthrough := through_retire (H := H) (A := L.pieces) (B := []) (o := none)
    (P := Emptied H config) (by simpa using h.stored.sorted) ?_ (emptied_settled stored_empty)
  · rw [List.append_nil] at hthrough
    exact hthrough.1.mono fun _ hd => .inr ⟨rfl, rfl, hd⟩
  · intro A' F' hA
    refine ⟨marked A' F' [], ?_, ?_⟩
    · rw [markedDir]
      exact List.append_nil _
    · rw [map_fst_marked, List.append_nil, hA]
      exact hm.stored

end Varve.Journal
