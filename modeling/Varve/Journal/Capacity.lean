import Varve.Lib.DiskSizes
import Varve.Journal.Durability

/-!
# The journal's account of its disk space

Runs of a journal without I/O failures, from any directory that `open` accepts: `disk_bytes` is
what the segment files take up, an append grows it by what it announced, and the seal of an active
segment always has its space.
-/

namespace Varve.Journal

open Disk (sizes applySizes resize run view perm_run)
open Result (bind_ok ensure_bind)

variable {H : Digest} {config : JournalConfig} {d : Directory} {j j' : Journal}
  {ss : List Segment} {s s' : Segment} {k : Nat} {hash : Bytes}

def sizesOf (segments : List Segment) : List (Nat × Nat) := segments.map fun s => (s.id, s.len)

/-- The space kept free for the seal of an active segment. -/
def sealReserve (j : Journal) : Nat := if j.active.isSome then reservedSealBytes else 0

structure Accounted (config : JournalConfig) (d : Directory) (j : Journal) : Prop where
  config_eq : j.config = config
  files : (sizes d).Perm (sizesOf j.segments)
  ids : (j.segments.map Segment.id).Nodup
  next_id : ∀ s ∈ j.segments, s.id < j.nextSegmentId
  bytes : j.diskBytes = (j.segments.map Segment.len).sum
  total : j.diskBytes + sealReserve j ≤ config.maxTotalBytes
  count : j.segments.length ≤ config.maxSegments
  each : ∀ s ∈ j.segments, s.len ≤ config.segmentBytes
  active : ∀ a, j.active = some a → ∃ ss s, j.segments = ss ++ [s] ∧ s.len = a.len ∧
    a.len + reservedSealBytes ≤ config.segmentBytes

theorem sizesOf_concat : sizesOf (ss ++ [s]) = sizesOf ss ++ [(s.id, s.len)] := by
  simp [sizesOf]

theorem ids_concat (h : ((ss ++ [s]).map Segment.id).Nodup) :
    ∀ file ∈ sizesOf ss, file.1 ≠ s.id := by
  intro file hf heq
  obtain ⟨t, ht, rfl⟩ := List.mem_map.mp hf
  rw [List.map_append, List.nodup_append] at h
  exact h.2.2 t.id (List.mem_map.mpr ⟨t, ht, rfl⟩) s.id (by simp) heq

theorem resize_last (h : ((ss ++ [s]).map Segment.id).Nodup) (s' : Segment) (hid : s'.id = s.id)
    (f : Nat → Nat) (hlen : s'.len = f s.len) :
    resize s.id f (sizesOf (ss ++ [s])) = sizesOf (ss ++ [s']) := by
  rw [sizesOf_concat, Disk.resize_concat (ids_concat h), sizesOf_concat, hid, hlen]

structure Replaces (config : JournalConfig) (ss : List Segment) (s' : Segment) (j j' : Journal) :
    Prop where
  config_eq : j'.config = j.config
  segments : j'.segments = ss ++ [s']
  next_id : j'.nextSegmentId = j.nextSegmentId
  bytes : j'.diskBytes = (ss.map Segment.len).sum + s'.len
  total : j'.diskBytes + sealReserve j' ≤ config.maxTotalBytes
  each : s'.len ≤ config.segmentBytes
  active : ∀ a, j'.active = some a → s'.len = a.len ∧
    a.len + reservedSealBytes ≤ config.segmentBytes

theorem Accounted.replace (h : Accounted config d j) (hseg : j.segments = ss ++ [s])
    (s' : Segment) (hid : s'.id = s.id) (hr : Replaces config ss s' j j') {ops : List Io}
    (hops : ops.foldl applySizes (sizesOf (ss ++ [s])) = sizesOf (ss ++ [s'])) :
    Accounted config (run d ops) j' where
  config_eq := hr.config_eq.trans h.config_eq
  files := by
    have hfiles := perm_run (hseg ▸ h.files) ops
    rw [hops] at hfiles
    rw [hr.segments]
    exact hfiles
  ids := by
    have hids := h.ids
    rw [hseg] at hids
    rw [hr.segments]
    simpa [hid] using hids
  next_id := by
    have hnext := h.next_id
    rw [hseg] at hnext
    rw [hr.segments, hr.next_id]
    intro t ht
    rcases List.mem_append.mp ht with ht | ht
    · exact hnext t (List.mem_append_left _ ht)
    · rw [List.mem_singleton.mp ht, hid]
      exact hnext s (by simp)
  bytes := by
    rw [hr.bytes, hr.segments]
    simp
  total := hr.total
  count := by
    have hcount := h.count
    rw [hseg] at hcount
    rw [hr.segments]
    simpa using hcount
  each := by
    have heach := h.each
    rw [hseg] at heach
    rw [hr.segments]
    intro t ht
    rcases List.mem_append.mp ht with ht | ht
    · exact heach t (List.mem_append_left _ ht)
    · rw [List.mem_singleton.mp ht]
      exact hr.each
  active a ha := ⟨ss, s', hr.segments, (hr.active a ha).1, (hr.active a ha).2⟩

theorem Accounted.bytes_concat (h : Accounted config d j) (hseg : j.segments = ss ++ [s]) :
    j.diskBytes = (ss.map Segment.len).sum + s.len := by
  rw [h.bytes, hseg]
  simp

-- Sealing, starting and writing

theorem Accounted.sealActive (H : Digest) (h : Accounted config d j) :
    Accounted config (run d (j.sealActive H).1) (j.sealActive H).2 ∧
      (j.sealActive H).2.active = none ∧
      (j.sealActive H).2.diskBytes = j.diskBytes + sealReserve j ∧
      (j.sealActive H).2.segments.length = j.segments.length ∧
      (j.sealActive H).2.segments.map Segment.id = j.segments.map Segment.id := by
  cases hj : j.active with
  | none =>
    have heq : j.sealActive H = ([], j) := by rw [Journal.sealActive, hj]
    rw [heq]
    exact ⟨h, hj, by simp [sealReserve, hj], rfl, rfl⟩
  | some a =>
    obtain ⟨ss, s, hseg, hlen, hroom⟩ := h.active a hj
    have hbytes := h.bytes_concat hseg
    have htotal := h.total
    rw [sealReserve, hj, Option.isSome_some, if_pos rfl] at htotal
    have hnodup : ((ss ++ [s]).map Segment.id).Nodup := hseg ▸ h.ids
    have heq : j.sealActive H = ([.append s.id (sealOf H a.hash s.id (j.lastSequence + 1)
        (a.len + reservedSealBytes)), .sync s.id],
        { j with
          active := none
          segments := ss ++ [{ s with len := s.len + reservedSealBytes }]
          diskBytes := j.diskBytes + reservedSealBytes }) := by
      simp only [Journal.sealActive, hj, hseg, setLast_concat, lastId_concat hseg]
    rw [heq]
    refine ⟨?_, rfl, ?_, ?_, ?_⟩
    · refine h.replace hseg { s with len := s.len + reservedSealBytes } rfl ?_ ?_
      · refine ⟨rfl, rfl, rfl, ?_, ?_, ?_, ?_⟩
        · dsimp only
          omega
        · simpa [sealReserve] using htotal
        · dsimp only
          omega
        · intro a ha
          cases ha
      · have hdata : (sealOf H a.hash s.id (j.lastSequence + 1)
            (a.len + reservedSealBytes)).length = reservedSealBytes := length_sealOf
        simp only [List.foldl_cons, List.foldl_nil, applySizes, hdata]
        exact resize_last hnodup { s with len := s.len + reservedSealBytes } rfl _ rfl
    · simp [sealReserve, hj]
    · simp [hseg]
    · simp [hseg]

theorem Accounted.start (hc : config.Valid) (h : Accounted config d j)
    (hcount : j.segments.length < config.maxSegments)
    (htotal : j.diskBytes + headerBytes + reservedSealBytes ≤ config.maxTotalBytes)
    (header : Bytes) (hlen : header.length = headerBytes) (first last : Nat) :
    Accounted config (run d [.create j.nextSegmentId, .append j.nextSegmentId header,
        .sync j.nextSegmentId, .syncDir])
      { j with
        active := some ⟨headerBytes, header⟩
        segments := j.segments ++ [⟨j.nextSegmentId, headerBytes, first, last⟩]
        nextSegmentId := j.nextSegmentId + 1
        diskBytes := j.diskBytes + headerBytes } := by
  have hseg := hc.segment.1
  unfold JournalConfig.minimum at hseg
  have hfresh : ∀ file ∈ sizesOf j.segments, file.1 ≠ j.nextSegmentId := by
    intro file hf
    obtain ⟨t, ht, rfl⟩ := List.mem_map.mp hf
    exact (h.next_id t ht).ne
  refine ⟨h.config_eq, ?_, ?_, ?_, ?_, ?_, ?_, ?_, ?_⟩
  · have hfiles := perm_run h.files [.create j.nextSegmentId, .append j.nextSegmentId header,
      .sync j.nextSegmentId, .syncDir]
    simp only [List.foldl_cons, List.foldl_nil, applySizes, Disk.resize_concat hfresh,
      hlen] at hfiles
    simpa [sizesOf_concat] using hfiles
  · simp only [List.map_append, List.map_cons, List.map_nil]
    refine List.nodup_append.mpr ⟨h.ids, List.nodup_singleton _, ?_⟩
    intro k hk k' hk'
    obtain ⟨t, ht, rfl⟩ := List.mem_map.mp hk
    rw [List.mem_singleton.mp hk']
    exact (h.next_id t ht).ne
  · intro t ht
    rcases List.mem_append.mp ht with ht | ht
    · exact Nat.lt_succ_of_lt (h.next_id t ht)
    · rw [List.mem_singleton.mp ht]
      exact Nat.lt_succ_self _
  · simp [h.bytes]
  · exact htotal
  · simpa using Nat.succ_le_of_lt hcount
  · intro t ht
    rcases List.mem_append.mp ht with ht | ht
    · exact h.each t ht
    · rw [List.mem_singleton.mp ht]
      dsimp only
      omega
  · intro a ha
    cases ha
    exact ⟨_, _, rfl, rfl, by dsimp only; omega⟩

theorem Accounted.writeFrame (h : Accounted config d j) {a : Active} (hj : j.active = some a)
    (frame : Bytes) (hroom : a.len + frame.length + reservedSealBytes ≤ config.segmentBytes)
    (htotal : j.diskBytes + frame.length + reservedSealBytes ≤ config.maxTotalBytes) (next : Nat) :
    Accounted config (run d (j.writeFrame frame next).1) (j.writeFrame frame next).2 := by
  obtain ⟨ss, s, hseg, hlen, -⟩ := h.active a hj
  have hbytes := h.bytes_concat hseg
  have hnodup : ((ss ++ [s]).map Segment.id).Nodup := hseg ▸ h.ids
  simp only [Journal.writeFrame, hj, hseg, setLast_concat, lastId_concat hseg, Option.map_some]
  refine h.replace hseg { s with len := s.len + frame.length, last := next - 1 } rfl ?_ ?_
  · refine ⟨rfl, rfl, rfl, ?_, htotal, ?_, ?_⟩
    · dsimp only
      omega
    · dsimp only
      omega
    · rintro b hb
      cases hb
      exact ⟨by dsimp only; omega, hroom⟩
  · exact resize_last hnodup { s with len := s.len + frame.length, last := next - 1 } rfl
      (· + frame.length) rfl

-- Appending

theorem rotate_eq (H : Digest) (j : Journal) : j.rotate H =
    ((j.sealActive H).1 ++ [.create (j.sealActive H).2.nextSegmentId,
        .append (j.sealActive H).2.nextSegmentId (segmentHeader H (j.sealActive H).2.nextSegmentId
          (j.sealActive H).2.nextSequence),
        .sync (j.sealActive H).2.nextSegmentId, .syncDir],
      { (j.sealActive H).2 with
        active := some ⟨headerBytes, segmentHeader H (j.sealActive H).2.nextSegmentId
          (j.sealActive H).2.nextSequence⟩
        segments := (j.sealActive H).2.segments ++ [⟨(j.sealActive H).2.nextSegmentId, headerBytes,
          (j.sealActive H).2.nextSequence, (j.sealActive H).2.nextSequence - 1⟩]
        nextSegmentId := (j.sealActive H).2.nextSegmentId + 1
        diskBytes := (j.sealActive H).2.diskBytes + headerBytes }) := rfl

theorem requiredAppendBytes_planned {plan : AppendPlan} (h : j.appendPlan records true = .ok plan) :
    j.requiredAppendBytes records = .ok (planned j records).growth := by
  obtain ⟨hadm, -⟩ := appendPlan_ok.mp h
  rw [requiredAppendBytes, appendPlan_ok.mpr ⟨⟨hadm.group, hadm.next, hadm.ids, ?_, ?_⟩, rfl⟩]
  · rfl
  · intro hf
    cases hf
  · intro hf
    cases hf

theorem growth_rotate (hrot : j.mustRotate (frameSize records) = true) :
    (planned j records).growth = frameSize records + headerBytes + sealReserve j := by
  rw [planned, hrot, reserve, if_pos rfl, sealReserve]
  dsimp only
  omega

theorem growth_stay (hrot : j.mustRotate (frameSize records) = false) :
    (planned j records).growth = frameSize records := by
  rw [planned, hrot, reserve, if_neg (by simp)]
  dsimp only
  omega

theorem active_of_stay (hrot : j.mustRotate n = false) : ∃ a, j.active = some a ∧
    a.len + n + reservedSealBytes ≤ j.config.segmentBytes := by
  cases hj : j.active with
  | none => simp [mustRotate, hj] at hrot
  | some a =>
    simp only [mustRotate, hj, Bool.or_eq_false_iff, decide_eq_false_iff_not, Nat.not_lt] at hrot
    exact ⟨a, rfl, hrot.1⟩

theorem Accounted.appendGroup (hc : config.Valid) (h : Accounted config d j)
    (ha : j.appendGroup H records = .ok (ops, j', group)) :
    Accounted config (run d ops) j' ∧ ∃ n, j.requiredAppendBytes records = .ok n ∧
      j'.diskBytes = j.diskBytes + n := by
  obtain ⟨plan, hplan, ha⟩ := bind_ok.mp ha
  obtain ⟨hadm, rfl⟩ := appendPlan_ok.mp hplan
  have hrequired := requiredAppendBytes_planned hplan
  have hbytes := hadm.bytes rfl
  have hsize := hadm.group.size
  have hseg := hc.segment.1
  unfold JournalConfig.minimum at hseg
  rw [h.config_eq] at hbytes hsize
  have hframe : (encode H records (planned j records).size j.nextSequence
      ((planned j records).next - 1)).length = frameSize records := length_encode
  have hplanned : (planned j records).rotate = j.mustRotate (frameSize records) := rfl
  rw [hplanned] at ha
  cases hrot : j.mustRotate (frameSize records) with
  | true =>
    rw [hrot, if_pos rfl, rotate_eq] at ha
    cases ha
    obtain ⟨hsealed, -, hdisk, hlength, -⟩ := h.sealActive H
    have hcount := hadm.count rfl hrot
    rw [h.config_eq] at hcount
    rw [hrot, reserve, if_pos rfl] at hbytes
    have hstart := hsealed.start hc (by omega) (by rw [hdisk, sealReserve]; omega)
      (segmentHeader H (j.sealActive H).2.nextSegmentId (j.sealActive H).2.nextSequence)
      length_segmentHeader (j.sealActive H).2.nextSequence ((j.sealActive H).2.nextSequence - 1)
    have hwrite := hstart.writeFrame rfl (encode H records (planned j records).size
      j.nextSequence ((planned j records).next - 1)) (by rw [hframe]; dsimp only; omega)
      (by rw [hframe]; dsimp only; rw [hdisk, sealReserve]; omega) (planned j records).next
    refine ⟨?_, _, hrequired, ?_⟩
    · rw [Disk.run_append, Disk.run_append]
      exact hwrite
    · rw [growth_rotate hrot]
      simp only [hframe, hdisk]
      omega
  | false =>
    rw [hrot, if_neg (by simp)] at ha
    cases ha
    rw [hrot, reserve, if_neg (by simp)] at hbytes
    obtain ⟨a, hj, hroom⟩ := active_of_stay hrot
    rw [h.config_eq] at hroom
    have hwrite := h.writeFrame hj (encode H records (planned j records).size
      j.nextSequence ((planned j records).next - 1)) (by rw [hframe]; exact hroom)
      (by rw [hframe]; exact hbytes) (planned j records).next
    refine ⟨?_, _, hrequired, ?_⟩
    · rw [List.nil_append]
      exact hwrite
    · simp only [hframe, growth_stay hrot]

-- Reclaiming

theorem filter_retired {retired kept : List Segment}
    (h : ((retired ++ kept).map Segment.id).Nodup) :
    (sizesOf (retired ++ kept)).filter
      (fun file => decide (file.1 ∉ retired.reverse.map Segment.id)) = sizesOf kept := by
  rw [List.map_append, List.nodup_append] at h
  rw [sizesOf, List.map_append, List.filter_append]
  have hnone : (retired.map fun s => (s.id, s.len)).filter
      (fun file => decide (file.1 ∉ retired.reverse.map Segment.id)) = [] := by
    refine List.filter_eq_nil_iff.mpr fun file hf => ?_
    obtain ⟨t, ht, rfl⟩ := List.mem_map.mp hf
    simpa using ⟨t, ht, rfl⟩
  have hall : (kept.map fun s => (s.id, s.len)).filter
      (fun file => decide (file.1 ∉ retired.reverse.map Segment.id)) =
        kept.map fun s => (s.id, s.len) := by
    refine List.filter_eq_self.mpr fun file hf => ?_
    obtain ⟨t, ht, rfl⟩ := List.mem_map.mp hf
    simp only [List.map_reverse, List.mem_reverse, List.mem_map, not_exists, not_and,
      decide_eq_true_eq]
    intro r hr heq
    exact h.2.2 r.id (List.mem_map.mpr ⟨r, hr, rfl⟩) t.id (List.mem_map.mpr ⟨t, ht, rfl⟩) heq
  rw [hnone, hall]
  rfl

theorem Accounted.retire (h : Accounted config d j) (hn : j.active ≠ none → n < j.segments.length)
    (hk : ∀ s ∈ j.segments.drop n, s.id < k) (c : Nat) :
    Accounted config
      (run d ((j.segments.take n).reverse.map (fun s => .unlink s.id) ++ [.syncDir]))
      { j with
        segments := j.segments.drop n
        nextSegmentId := k
        diskBytes := j.diskBytes - ((j.segments.take n).map Segment.len).sum
        checkpointSequence := c } := by
  have hsplit : j.segments.take n ++ j.segments.drop n = j.segments := List.take_append_drop _ _
  have hnodup : ((j.segments.take n ++ j.segments.drop n).map Segment.id).Nodup :=
    hsplit.symm ▸ h.ids
  have hbytes : j.diskBytes = ((j.segments.take n).map Segment.len).sum +
      ((j.segments.drop n).map Segment.len).sum := by
    rw [← List.sum_append, ← List.map_append, hsplit, h.bytes]
  have htotal := h.total
  refine ⟨h.config_eq, ?_, ?_, hk, ?_, ?_, ?_, ?_, ?_⟩
  · have hfiles := perm_run h.files
      ((j.segments.take n).reverse.map (fun s => .unlink s.id) ++ [.syncDir])
    have hmap : (j.segments.take n).reverse.map (fun s => (.unlink s.id : Io)) =
        ((j.segments.take n).reverse.map Segment.id).map .unlink := by
      rw [List.map_map]
      rfl
    rw [List.foldl_append, hmap, Disk.foldl_unlink] at hfiles
    have hfilter := filter_retired hnodup
    rw [hsplit] at hfilter
    rw [hfilter] at hfiles
    rw [hmap]
    exact hfiles
  · rw [List.map_append, List.nodup_append] at hnodup
    exact hnodup.2.1
  · dsimp only
    omega
  · have hreserve : sealReserve { j with
        segments := j.segments.drop n
        nextSegmentId := k
        diskBytes := j.diskBytes - ((j.segments.take n).map Segment.len).sum
        checkpointSequence := c } = sealReserve j := rfl
    rw [hreserve]
    dsimp only
    omega
  · have hcount := h.count
    simp only [List.length_drop]
    omega
  · exact fun t ht => h.each t (List.mem_of_mem_drop ht)
  · intro a ha
    obtain ⟨ss, s, hseg, hlen, hroom⟩ := h.active a ha
    have hlt := hn (by rw [show j.active = some a from ha]; simp)
    rw [hseg, List.length_append, List.length_singleton] at hlt
    refine ⟨ss.drop n, s, ?_, hlen, hroom⟩
    dsimp only
    rw [hseg, List.drop_append_of_le_length (by omega)]

theorem Accounted.reclaimThrough (h : Accounted config d j)
    (hr : j.reclaimThrough H c = .ok (ops, j')) : Accounted config (run d ops) j' := by
  by_cases hcond : j.covered c = 0 ∨ c = 0 ∧ j.covered c < j.segments.length
  · simp only [Journal.reclaimThrough, ensure_bind] at hr
    obtain ⟨-, -, hr⟩ := hr
    have hcond' : (j.segments.takeWhile fun s => decide (s.last ≤ c)).length = 0 ∨ c = 0 ∧
        (j.segments.takeWhile fun s => decide (s.last ≤ c)).length < j.segments.length := hcond
    rw [if_pos hcond'] at hr
    cases hr
    exact ⟨h.config_eq, h.files, h.ids, h.next_id, h.bytes, h.total, h.count, h.each, h.active⟩
  · obtain ⟨ops₁, j₁, hj₁, rfl, rfl⟩ := reclaimThrough_ok hr hcond
    rw [Disk.run_append]
    by_cases hall : j.covered c = j.segments.length
    · rw [if_pos hall] at hj₁
      obtain ⟨rfl, rfl⟩ : ops₁ = (j.sealActive H).1 ∧ j₁ = (j.sealActive H).2 := by
        rw [← hj₁]
        exact ⟨rfl, rfl⟩
      obtain ⟨hsealed, hnone, -, hlength, -⟩ := h.sealActive H
      refine hsealed.retire (fun hsome => absurd hnone hsome) ?_ c
      intro t ht
      rw [List.drop_eq_nil_of_le (by omega)] at ht
      cases ht
    · rw [if_neg hall] at hj₁
      cases hj₁
      have hle := covered_le (j := j) (c := c)
      have hpos : c ≠ 0 := by
        intro hc
        exact hcond (.inr ⟨hc, by omega⟩)
      refine h.retire (fun _ => by omega) ?_ c
      rw [if_neg hpos]
      exact fun t ht => h.next_id t (List.mem_of_mem_drop ht)

-- Opening

theorem admitListing_inv {listing : Listing} (hn : count ≤ config.maxSegments)
    (hb : bytes ≤ config.maxTotalBytes)
    (h : admitListing config count bytes listing = .ok total) :
    total = bytes + listingBytes listing ∧ total ≤ config.maxTotalBytes ∧
      count + listing.length ≤ config.maxSegments ∧
      ∀ file ∈ listing, file.2.length ≤ config.segmentBytes := by
  induction listing generalizing count bytes with
  | nil =>
    cases h
    exact ⟨rfl, hb, hn, by simp⟩
  | cons file rest ih =>
    obtain ⟨id, content⟩ := file
    simp only [admitListing, ensure_bind] at h
    obtain ⟨hcount, heach, htotal, h⟩ := h
    obtain ⟨rfl, hle, hlen, hrest⟩ := ih hcount htotal h
    refine ⟨?_, hle, ?_, List.forall_mem_cons.mpr ⟨heach, hrest⟩⟩
    · simp [listingBytes, Nat.add_assoc]
    · rw [List.length_cons]
      omega

theorem inspectLoop_end_le {segment : Segment}
    (h : inspectLoop H config segment allowTail fuel rest pos next hash = .ok (groups, e))
    (hp : pos ≤ segment.len) : e.repairHeader = false ∧ e.validLen ≤ segment.len := by
  induction fuel generalizing rest pos next hash groups with
  | zero => cases h
  | succ fuel ih =>
    unfold inspectLoop at h
    split at h
    next hpos =>
      dsimp only at h
      split at h
      next =>
        simp only [ensure_bind] at h
        obtain ⟨-, h⟩ := h
        cases h
        exact ⟨rfl, hp⟩
      next hfull =>
        obtain ⟨⟨header, tail⟩, -, h⟩ := bind_ok.mp h
        dsimp only at h
        split at h
        next =>
          simp only [ensure_bind] at h
          obtain ⟨-, -, h⟩ := h
          cases h
          exact ⟨rfl, Nat.le_refl _⟩
        next =>
          obtain ⟨⟨size, count⟩, -, h⟩ := bind_ok.mp h
          dsimp only at h
          split at h
          next =>
            simp only [ensure_bind] at h
            obtain ⟨-, h⟩ := h
            cases h
            exact ⟨rfl, hp⟩
          next hroom =>
            obtain ⟨⟨body, rest⟩, -, h⟩ := bind_ok.mp h
            obtain ⟨⟨⟩, -, h⟩ := bind_ok.mp h
            obtain ⟨⟨later, e⟩, hloop, h⟩ := bind_ok.mp h
            cases h
            exact ih hloop (by omega)
    next =>
      cases h
      exact ⟨rfl, hp⟩

theorem inspect_end {segment : Segment}
    (h : inspect H config segment allowTail content first = .ok (groups, e)) :
    (e.repairHeader = true ∧ segment.len < headerBytes ∧ e.validLen = headerBytes) ∨
      (e.repairHeader = false ∧ e.validLen ≤ segment.len) := by
  simp only [inspect, inspectReader, ensure_bind] at h
  obtain ⟨-, h⟩ := h
  obtain ⟨⟨header, rest⟩, -, h⟩ := bind_ok.mp h
  dsimp only at h
  simp only [ensure_bind] at h
  obtain ⟨-, h⟩ := h
  split at h
  next hshort =>
    simp only [ensure_bind] at h
    obtain ⟨-, h⟩ := h
    cases h
    exact .inl ⟨rfl, by omega, rfl⟩
  next hfull => exact .inr (inspectLoop_end_le h (by omega))

def filesOf (listing : Listing) : List (Nat × Nat) :=
  listing.map fun file => (file.1, file.2.length)

theorem recoverSegments_inv {listing : Listing}
    (h : recoverSegments H config c floor isFirst previousId previousNext last listing = .ok r) :
    sizesOf r.segments = filesOf listing ∧
      ((listing = [] ∧ r.last = last ∧ r.previousId = previousId) ∨
        ∃ front s e, r.segments = front ++ [s] ∧ r.last = some e ∧ r.previousId = s.id ∧
          ((e.repairHeader = true ∧ s.len < headerBytes ∧ e.validLen = headerBytes) ∨
            (e.repairHeader = false ∧ e.validLen ≤ s.len))) := by
  induction listing generalizing isFirst previousId previousNext last r with
  | nil =>
    cases h
    exact ⟨rfl, .inl ⟨rfl, rfl, rfl⟩⟩
  | cons file rest ih =>
    obtain ⟨id, content⟩ := file
    simp only [recoverSegments, ensure_bind] at h
    obtain ⟨-, -, -, h⟩ := h
    obtain ⟨⟨groups, scanEnd⟩, hinspect, h⟩ := bind_ok.mp h
    simp only [ensure_bind] at h
    obtain ⟨-, h⟩ := h
    obtain ⟨recovered, hrec, h⟩ := bind_ok.mp h
    cases h
    obtain ⟨hsizes, hend⟩ := ih hrec
    refine ⟨?_, .inr ?_⟩
    · simp only [sizesOf, filesOf, List.map_cons] at hsizes ⊢
      rw [hsizes]
    · rcases hend with ⟨rfl, hlast, hprevious⟩ | ⟨front, s, e, hsegments, hlast, hprevious, hle⟩
      · have hnil : recovered.segments = [] := List.map_eq_nil_iff.mp hsizes
        have hscan := inspect_end hinspect
        dsimp only at hscan
        refine ⟨[], _, scanEnd, congrArg (_ :: ·) hnil, hlast, hprevious, ?_⟩
        dsimp only
        exact hscan
      · exact ⟨_ :: front, s, e, congrArg (_ :: ·) hsegments, hlast, hprevious, hle⟩

theorem sorted_ids (listing : Listing) :
    ((listing.insertionSort fun a b => a.1 ≤ b.1).map Prod.fst).Pairwise (· ≤ ·) := by
  let r : Nat × Bytes → Nat × Bytes → Prop := fun a b => a.1 ≤ b.1
  have : Std.Total r := ⟨fun a b => Nat.le_total a.1 b.1⟩
  have : IsTrans (Nat × Bytes) r := ⟨fun _ _ _ => Nat.le_trans⟩
  exact List.pairwise_map.mpr (List.pairwise_insertionSort r listing)

theorem accounted_found {listing : Listing} (hl : listing.Perm (view d))
    (hkeys : ((view d).map Prod.fst).Nodup) (ht : admitListing config 0 0 listing = .ok total)
    (hr : recoverSegments H config c (c + 1) true 0 1 none
      (listing.insertionSort fun a b => a.1 ≤ b.1) = .ok recovered) :
    Accounted config d (found config c total recovered) := by
  obtain ⟨rfl, htotal, hcount, heach⟩ := admitListing_inv (Nat.zero_le _) (Nat.zero_le _) ht
  obtain ⟨hsizes, hend⟩ := recoverSegments_inv hr
  have hsort := List.perm_insertionSort (fun a b : Nat × Bytes => a.1 ≤ b.1) listing
  have hfiles : (filesOf listing).Perm (sizesOf recovered.segments) := by
    rw [hsizes]
    exact (hsort.map _).symm
  have hids : recovered.segments.map Segment.id =
      (listing.insertionSort fun a b => a.1 ≤ b.1).map Prod.fst := by
    have := congrArg (List.map Prod.fst) hsizes
    simpa [sizesOf, filesOf, Function.comp_def] using this
  have hlens : (recovered.segments.map Segment.len).sum = listingBytes listing := by
    have := ((hfiles.map Prod.snd).sum_nat).symm
    simpa [sizesOf, filesOf, listingBytes, Function.comp_def] using this
  refine ⟨rfl, ?_, ?_, ?_, ?_, ?_, ?_, ?_, ?_⟩
  · refine List.Perm.trans ?_ hfiles
    exact (hl.symm.map _)
  · show (recovered.segments.map Segment.id).Nodup
    rw [hids]
    exact ((hsort.trans hl).map Prod.fst).nodup_iff.mpr hkeys
  · -- The ids are sorted, and the next one is above the last.
    intro t ht
    have ht : t ∈ recovered.segments := ht
    show t.id < recovered.previousId + 1
    rcases hend with ⟨hnil, -, -⟩ | ⟨front, s, e, hsegments, -, hprevious, -⟩
    · rw [hnil] at hsizes
      rw [List.map_eq_nil_iff.mp hsizes] at ht
      cases ht
    · rw [hsegments] at ht hids
      have hsorted := sorted_ids listing
      rw [← hids, List.map_append, List.pairwise_append] at hsorted
      rw [hprevious]
      rcases List.mem_append.mp ht with ht | ht
      · exact Nat.lt_succ_of_le (hsorted.2.2 t.id (List.mem_map.mpr ⟨t, ht, rfl⟩) s.id (by simp))
      · rw [List.mem_singleton.mp ht]
        exact Nat.lt_succ_self _
  · show 0 + listingBytes listing = _
    rw [Nat.zero_add]
    exact hlens.symm
  · simpa [sealReserve, found] using htotal
  · have := hfiles.length_eq
    simp only [filesOf, sizesOf, List.length_map] at this
    show recovered.segments.length ≤ _
    omega
  · intro t ht
    have hmem : (t.id, t.len) ∈ filesOf listing :=
      hfiles.mem_iff.mpr (List.mem_map.mpr ⟨t, ht, rfl⟩)
    obtain ⟨file, hf, heq⟩ := List.mem_map.mp hmem
    rw [← (Prod.mk.inj heq).2]
    exact heach file hf
  · intro a ha
    cases ha

theorem Accounted.repair (h : Accounted config d j)
    (hend : last = none ∨ ∃ front s e, j.segments = front ++ [s] ∧ last = some e ∧
      ((e.repairHeader = true ∧ s.len < headerBytes ∧ e.validLen = headerBytes) ∨
        (e.repairHeader = false ∧ e.validLen ≤ s.len)))
    (hr : Journal.repair H config j last = .ok (ops, j')) : Accounted config (run d ops) j' := by
  rcases hend with rfl | ⟨front, s, e, hseg, rfl, hvalid⟩
  · cases hr
    exact h
  · have hlast : j.segments.getLast? = some s := by rw [hseg]; simp
    unfold Journal.repair at hr
    rw [hlast] at hr
    dsimp only at hr
    split at hr
    next =>
      cases hr
      exact h
    next =>
      simp only [repairLast, ensure_bind, Except.ok.injEq, Prod.mk.injEq] at hr
      obtain ⟨htotal, hroom, rfl, rfl⟩ := hr
      have hbytes := h.bytes_concat hseg
      have hnodup : ((front ++ [s]).map Segment.id).Nodup := hseg ▸ h.ids
      rw [hseg, setLast_concat]
      refine h.replace hseg { s with len := e.validLen } rfl ?_ ?_
      · refine ⟨rfl, rfl, rfl, ?_, htotal, ?_, ?_⟩
        · dsimp only
          omega
        · dsimp only
          omega
        · rintro a ha
          cases ha
          exact ⟨rfl, hroom⟩
      · -- The file ends where the scan did: its header is written again, or its tail is cut off.
        rcases hvalid with ⟨hrepair, hshort, hlen⟩ | ⟨hkeep, hle⟩
        · have hheader : (segmentHeader H s.id s.first).length = headerBytes := length_segmentHeader
          simp only [hrepair, if_true, List.foldl_cons, List.foldl_nil, applySizes, hheader]
          exact resize_last hnodup { s with len := e.validLen } rfl _ (by dsimp only; omega)
        · simp only [hkeep, Bool.false_eq_true, if_false]
          split
          next =>
            simp only [List.foldl_cons, List.foldl_nil, applySizes]
            exact resize_last hnodup { s with len := e.validLen } rfl _ (by dsimp only; omega)
          next heq =>
            rw [← not_not.mp heq]
            rfl

theorem accounted_open {listing : Listing} (hl : listing.Perm (view d))
    (hkeys : ((view d).map Prod.fst).Nodup)
    (h : openWithCheckpoint H config c listing = .ok (ops, j)) :
    Accounted config (run d ops) j := by
  rw [openWithCheckpoint, bind_ok] at h
  obtain ⟨u, -, h⟩ := h
  rw [ensure_bind] at h
  obtain ⟨-, h⟩ := h
  rw [bind_ok] at h
  obtain ⟨total, htotal, h⟩ := h
  rw [bind_ok] at h
  obtain ⟨recovered, hrec, h⟩ := h
  rw [ensure_bind] at h
  obtain ⟨-, h⟩ := h
  rw [bind_ok] at h
  obtain ⟨⟨ops', j'⟩, hrepair, h⟩ := h
  cases h
  have hfound := accounted_found hl hkeys htotal hrec
  have hrepaired := hfound.repair (by
    obtain ⟨hsizes, ⟨-, hlast, -⟩ | ⟨front, s, e, hseg, hlast, -, hvalid⟩⟩ :=
      recoverSegments_inv hrec
    · exact .inl hlast
    · exact .inr ⟨front, s, e, hseg, hlast, hvalid⟩) hrepair
  -- What remains of the I/O is syncs.
  have hsync (t : Directory) : (sizes (run t (j.segments.map (fun s => .sync s.id) ++
      [.syncDir]))).Perm (sizes t) := by
    have hmap : j.segments.map (fun s => (.sync s.id : Io)) =
        (j.segments.map Segment.id).map .sync := by
      rw [List.map_map]
      rfl
    have hperm := perm_run (List.Perm.refl (sizes t))
      (j.segments.map (fun s => (.sync s.id : Io)) ++ [.syncDir])
    rw [hmap, List.foldl_append, Disk.foldl_sync] at hperm
    rw [hmap]
    exact hperm
  rw [List.append_assoc, Disk.run_append]
  exact { hrepaired with files := (hsync _).trans hrepaired.files }

-- Runs

structure Workplace where
  disk : Directory
  journal : Option Journal

inductive Use where
  | reopen (checkpointSequence : Nat)
  | call (op : Call)
deriving DecidableEq, Repr

inductive Works (H : Digest) (config : JournalConfig) : Workplace → Use → Workplace → Prop where
  | reopen {w : Workplace} {listing : Listing} {opened : Journal}
      (hl : listing.Perm (view w.disk))
      (h : openWithCheckpoint H config c listing = .ok (ops, opened)) :
      Works H config w (.reopen c) ⟨run w.disk ops, some opened⟩
  | call {w : Workplace} {before after : Journal} (hj : w.journal = some before)
      (h : op.execute H before = .ok (ops, after)) :
      Works H config w (.call op) ⟨run w.disk ops, some after⟩
  | refused {w : Workplace} {before : Journal} (hj : w.journal = some before)
      (h : op.execute H before = .error e) : Works H config w (.call op) w

/-- Runs without I/O failures, from a directory of any files under distinct names. -/
def working (H : Digest) (config : JournalConfig) : Machine Workplace Use where
  init w := w.journal = none ∧ ((view w.disk).map Prod.fst).Nodup
  step := Works H config

theorem keys_sizes : (sizes d).map Prod.fst = (view d).map Prod.fst := by
  simp [sizes, Function.comp_def]

theorem Accounted.keys (h : Accounted config d j) : ((view d).map Prod.fst).Nodup := by
  rw [← keys_sizes, (h.files.map Prod.fst).nodup_iff]
  simpa [sizesOf, Function.comp_def] using h.ids

theorem Accounted.execute (hc : config.Valid) (h : Accounted config d j) {op : Call}
    (he : op.execute H j = .ok (ops, j')) : Accounted config (run d ops) j' := by
  cases op with
  | append records =>
    obtain ⟨⟨ops, j', group⟩, hgroup, he⟩ := bind_ok.mp he
    cases he
    exact (h.appendGroup hc hgroup).1
  | sealSnapshot =>
    cases he
    exact (h.sealActive H).1
  | reclaim c => exact h.reclaimThrough he

theorem working_keeps {w : Workplace} (hc : config.Valid) (hr : (working H config).Reachable w) :
    ((view w.disk).map Prod.fst).Nodup ∧ ∀ j, w.journal = some j → Accounted config w.disk j := by
  refine hr.invariant (I := fun w => ((view w.disk).map Prod.fst).Nodup ∧
    ∀ j, w.journal = some j → Accounted config w.disk j) ?_ ?_
  · rintro w ⟨hnone, hkeys⟩
    exact ⟨hkeys, fun j hj => by rw [hnone] at hj; cases hj⟩
  · rintro w use w' ⟨hkeys, hacc⟩ hstep
    cases hstep with
    | reopen hl h =>
      have hopen := accounted_open hl hkeys h
      exact ⟨hopen.keys, fun j hj => by cases hj; exact hopen⟩
    | call hj h =>
      have hnext := (hacc _ hj).execute hc h
      exact ⟨hnext.keys, fun j hj => by cases hj; exact hnext⟩
    | refused hj h => exact ⟨hkeys, hacc⟩

/-- What `disk_bytes` says of the files, what an append adds to it, and the bounds that leave
room for the seal. -/
theorem capacity_accounted (hv : config.validate = .ok ()) {w : Workplace}
    (hr : (working H config).Reachable w) (hj : w.journal = some j) :
    j.diskBytes = ((sizes w.disk).map Prod.snd).sum ∧
    (sizes w.disk).Perm (sizesOf j.segments) ∧
    (∀ records ops j' group, j.appendGroup H records = .ok (ops, j', group) →
      ∃ n, j.requiredAppendBytes records = .ok n ∧ j'.diskBytes = j.diskBytes + n) ∧
    j.diskBytes + sealReserve j ≤ config.maxTotalBytes ∧
    (∀ s ∈ j.segments, s.len ≤ config.segmentBytes) ∧
    (∀ a, j.active = some a → ∃ s, j.segments.getLast? = some s ∧ s.len = a.len ∧
      s.len + reservedSealBytes ≤ config.segmentBytes) ∧
    j.segments.length ≤ config.maxSegments ∧
    (j.sealSnapshot H).2.1.diskBytes ≤ config.maxTotalBytes ∧
    ∀ s ∈ (j.sealSnapshot H).2.1.segments, s.len ≤ config.segmentBytes := by
  have hc := JournalConfig.valid hv
  have h := (working_keeps hc hr).2 j hj
  have hsum := (h.files.map Prod.snd).sum_nat
  have hlens : (sizesOf j.segments).map Prod.snd = j.segments.map Segment.len := by
    simp [sizesOf, Function.comp_def]
  obtain ⟨hsealed, -, -, -, -⟩ := h.sealActive H
  refine ⟨?_, h.files, ?_, h.total, h.each, ?_, h.count, ?_, hsealed.each⟩
  · rw [hsum, hlens, h.bytes]
  · intro records ops j' group ha
    exact (h.appendGroup hc ha).2
  · intro a ha
    obtain ⟨ss, s, hseg, hlen, hroom⟩ := h.active a ha
    exact ⟨s, by rw [hseg]; simp, hlen, by omega⟩
  · exact Nat.le_trans (Nat.le_add_right _ _) hsealed.total

def emptyJournal : Journal := ⟨smallConfig, [], none, 1, 1, 0, 0, 0, 0⟩

theorem capacity_accounted_append : ∃ w ops j' group,
    (working blake3 smallConfig).Reachable w ∧ w.journal = some emptyJournal ∧
      emptyJournal.appendGroup blake3 [[7]] = .ok (ops, j', group) ∧ j'.diskBytes = 201 := by
  have hv : smallConfig.validate = .ok () := by decide
  have hinit : (working blake3 smallConfig).Reachable ⟨[], none⟩ := .init ⟨rfl, List.nodup_nil⟩
  have hopen : openWithCheckpoint blake3 smallConfig 0 [] = .ok ([.syncDir], emptyJournal) := rfl
  have hstep : Works blake3 smallConfig ⟨[], none⟩ (.reopen 0)
      ⟨run [] [.syncDir], some emptyJournal⟩ := .reopen (List.Perm.refl []) hopen
  have hr := hinit.step hstep
  obtain ⟨-, -, hgrows, -⟩ := capacity_accounted hv hr rfl
  have happend : emptyJournal.appendGroup blake3 [[7]] = .ok (_, _, _) := rfl
  obtain ⟨n, hrequired, hbytes⟩ := hgrows _ _ _ _ happend
  cases hrequired
  exact ⟨_, _, _, _, hr, rfl, happend, hbytes⟩

end Varve.Journal
