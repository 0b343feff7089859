import Mathlib.Data.List.Chain
import Varve.Tier.Transport

/-!
# Restoring a shipped journal

A ship takes the sealed segments that hold records above the checkpoint.
-/

namespace Varve.Tier

open Journal
open Disk (run view)
open Result (ensure bind_ok ensure_bind)
open Text (toHex toHex_injective)

variable {H : Digest} {limits : JournalConfig} {ps qs : List Piece} {files : Listing}
  {sequence : Nat}

-- The shipped segments

def sealedDescriptor (p : Piece) : SealedSegment :=
  ⟨p.id, p.first, p.next - 1, p.bodySize + reservedSealBytes⟩

def shipped (checkpoint : Nat) (ps : List Piece) : List Piece :=
  ps.filter fun p => decide (p.first < p.next ∧ checkpoint + 1 < p.next)

theorem mem_shipped : p ∈ shipped c ps ↔ p ∈ ps ∧ p.first < p.next ∧ c + 1 < p.next := by
  simp [shipped]

theorem shipped_sublist : (shipped c ps).Sublist ps := List.filter_sublist

theorem descriptors_layout {o : Option Piece} (hp : ∀ p ∈ ps ++ o.toList, 0 < p.first) :
    descriptors o.isSome (Layout.segments ⟨ps, o⟩) =
      ((ps ++ o.toList).filter fun p => decide (p.first < p.next)).map sealedDescriptor := by
  have hempty {p : Piece} (h : 0 < p.first) : p.next - 1 < p.first ↔ ¬p.first < p.next := by
    have := p.first_le_next
    omega
  induction ps with
  | nil =>
    cases o with
    | none => rfl
    | some p =>
      have := hempty (hp p (by simp))
      by_cases h : p.first < p.next <;>
        simp_all [Layout.segments, descriptors, activeSegment, sealedDescriptor]
  | cons p ps ih =>
    have hrest := ih fun q hq => hp q (List.mem_cons_of_mem _ hq)
    have hsegments : Layout.segments ⟨p :: ps, o⟩ =
        sealedSegment p :: Layout.segments ⟨ps, o⟩ := rfl
    have hbytes : (o.isSome && (Layout.segments ⟨ps, o⟩).isEmpty) = false := by
      cases o <;> simp [Layout.segments]
    have := hempty (hp p List.mem_cons_self)
    rw [hsegments, descriptors, hrest, hbytes]
    by_cases h : p.first < p.next <;> simp_all [sealedSegment, sealedDescriptor]

theorem captureTail_ok (h : captureTail m s c n ds = .ok tail) :
    tail = ds.filter fun d => decide (c < d.lastSequence) := by
  induction ds generalizing n tail with
  | nil =>
    cases h
    rfl
  | cons d ds ih =>
    rw [captureTail] at h
    split at h
    · rename_i hle
      rw [List.filter_cons_of_neg (by simpa using hle)]
      exact ih h
    · rename_i hlt
      simp only [fileName, ensure_bind] at h
      obtain ⟨-, -, -, -, h⟩ := h
      obtain ⟨rest, hrest, h⟩ := Result.bind_ok.mp h
      cases h
      rw [List.filter_cons_of_pos (by simpa using hlt), ih hrest]

theorem filter_sealedDescriptor :
    ((ps.filter fun p => decide (p.first < p.next)).map sealedDescriptor).filter
        (fun d => decide (c < d.lastSequence)) =
      (shipped c ps).map sealedDescriptor := by
  have hlast (p : Piece) : c < p.next - 1 ↔ c + 1 < p.next := by omega
  rw [List.filter_map, shipped, List.filter_filter]
  congr 1
  refine List.filter_congr fun p _ => ?_
  simp [sealedDescriptor, hlast, Bool.and_comm]

theorem capture_ok {s : CommitLog.State}
    (hm : Matches H limits s.checkpointSequence K L s.journal)
    (h : capture H s sequence used = .ok (ops, s', .ok D)) :
    sequence = K.length ∧ D = (shipped s.checkpointSequence L.pieces).map sealedDescriptor ∧
      run (settledDir H L) ops = settledDir H L.close := by
  obtain ⟨j', hseal, -⟩ := hm.sealActive
  simp only [capture, CommitLog.ensureBudget, ensure_bind, sealSnapshot, hseal] at h
  obtain ⟨-, hdurable, -, h⟩ := h
  simp only [Except.ok.injEq, Prod.mk.injEq] at h
  obtain ⟨rfl, -, htail⟩ := h
  refine ⟨hdurable.symm.trans hm.durable, ?_, (hm.stored.through_seal (g := [])).2⟩
  have hactive : s.journal.active.isSome = L.active.isSome := by
    rw [hm.active, Option.isSome_map]
  have hd : descriptors L.active.isSome L.segments = _ :=
    descriptors_layout fun p hp => (hm.stored.pieces p hp).first_pos
  rw [captureTail_ok htail, hactive, hm.segments, hd, filter_sealedDescriptor]
  rfl

-- Ranges and ids

/-- Segments that hold consecutive ranges from sequence `n` on. -/
def Tiles : Nat → List Piece → Prop
  | _, [] => True
  | n, p :: ps => p.first = n ∧ Tiles p.next ps

theorem tiles_shipped (h : Chain c i n ps) (hn : c + 1 < n) :
    Tiles n (shipped c ps) ∧ endNext n (shipped c ps) = endNext n ps := by
  induction ps generalizing i n with
  | nil => exact ⟨trivial, rfl⟩
  | cons p ps ih =>
    obtain ⟨hlink, htail⟩ := h
    have hfirst : p.first = n := by
      have := hlink.gap
      have := hlink.order
      omega
    have hle := p.first_le_next
    obtain ⟨htiles, hend⟩ := ih htail (by omega)
    by_cases hempty : p.first < p.next
    · rw [shipped, List.filter_cons_of_pos (by simp; omega), ← shipped]
      exact ⟨⟨hfirst, htiles⟩, by simpa using hend⟩
    · rw [shipped, List.filter_cons_of_neg (by simp [hempty]), ← shipped, endNext_cons]
      obtain rfl : p.next = n := by omega
      exact ⟨htiles, hend⟩

theorem shipped_cases (h : Chain c i n ps) (hn : n ≤ c + 1) :
    shipped c ps = [] ∧ endNext n ps ≤ c + 1 ∨
    ∃ p qs, shipped c ps = p :: qs ∧ p.first ≤ c + 1 ∧ c + 1 < p.next ∧ Tiles p.next qs ∧
      endNext p.next qs = endNext n ps := by
  induction ps generalizing i n with
  | nil => exact .inl ⟨rfl, hn⟩
  | cons p ps ih =>
    obtain ⟨hlink, htail⟩ := h
    have hfirst : p.first ≤ c + 1 := by
      have := hlink.gap
      omega
    by_cases hnext : c + 1 < p.next
    · obtain ⟨htiles, hend⟩ := tiles_shipped htail hnext
      refine .inr ⟨p, shipped c ps, ?_, hfirst, hnext, htiles, by rw [hend, endNext_cons]⟩
      rw [shipped, List.filter_cons_of_pos (by simp; omega), ← shipped]
    · rw [shipped, List.filter_cons_of_neg (by simp [hnext]), ← shipped, endNext_cons]
      exact ih htail (by omega)

theorem link_tiles (hf : first = n) (hn : c + 1 < n ∨ c = 0) : Link c i n k first ↔ k = i + 1 := by
  subst hf
  refine ⟨fun h => ?_, fun h => ⟨Nat.le_refl _, .inl rfl, .inl h⟩⟩
  rcases h.ids with h | ⟨hc, hle, -⟩
  · exact h
  · omega

/-- The pieces that a ship leaves out for want of records are after all that it takes, or before
all of them under a checkpoint. -/
def Whole (c : Nat) (ps : List Piece) : Prop :=
  ∀ e ∈ ps, e.next ≤ e.first → (∀ p ∈ shipped c ps, p.id < e.id) ∨
    0 < c ∧ ∀ p ∈ shipped c ps, e.id < p.id

theorem chain_uncovered (h : Chain c i n ps) (hs : ps.Pairwise fun p q => p.id < q.id)
    (hn : c + 1 < n ∨ c = 0 ∧ 0 < n) : Chain c i n (shipped c ps) ↔
      ∀ e ∈ ps, e.next ≤ e.first → ∀ p ∈ shipped c ps, p.id < e.id := by
  induction ps generalizing i n with
  | nil => simp [shipped, Chain]
  | cons p ps ih =>
    obtain ⟨hlink, htail⟩ := h
    obtain ⟨hids, hsorted⟩ := List.pairwise_cons.mp hs
    have hfirst : p.first = n := by
      have := hlink.gap
      have := hlink.order
      omega
    have hid : p.id = i + 1 := (link_tiles hfirst (by omega)).mp hlink
    have hle := p.first_le_next
    have hrest := ih htail hsorted (by omega)
    by_cases hempty : p.first < p.next
    · have hcons : shipped c (p :: ps) = p :: shipped c ps := by
        rw [shipped, List.filter_cons_of_pos (by simp; omega), ← shipped]
      rw [hcons, Chain, and_iff_right hlink, hrest]
      constructor
      · intro h e he hnil
        rcases List.mem_cons.mp he with rfl | he
        · omega
        · exact List.forall_mem_cons.mpr ⟨hids e he, h e he hnil⟩
      · exact fun h e he hnil q hq =>
          h e (List.mem_cons_of_mem _ he) hnil q (List.mem_cons_of_mem _ hq)
    · -- the piece is left out, so nothing may be taken after it
      have hcons : shipped c (p :: ps) = shipped c ps := by
        rw [shipped, List.filter_cons_of_neg (by simp [hempty]), ← shipped]
      have hafter : ∀ q ∈ shipped c ps, p.id < q.id := fun q hq =>
        hids q (shipped_sublist.subset hq)
      rw [hcons]
      constructor
      · intro h e _ _ q hq
        cases hqs : shipped c ps with
        | nil => simp [hqs] at hq
        | cons q' qs =>
          rw [hqs, Chain] at h
          have hq' := hafter q' (hqs ▸ List.mem_cons_self)
          have := h.1.ids
          have := h.1.order
          omega
      · intro h
        cases hqs : shipped c ps with
        | nil => trivial
        | cons q qs =>
          have hq : q ∈ shipped c ps := hqs ▸ List.mem_cons_self
          have := h p List.mem_cons_self (by omega) q hq
          have := hafter q hq
          omega

theorem link_first (hf : first ≤ c + 1) (hpos : 0 < first) (hc : 0 < c) : Link c 0 1 k first :=
  ⟨hpos, .inr hf, .inr ⟨hc, by omega, hf⟩⟩

theorem chain_covered (h : Chain c i n ps) (hs : ps.Pairwise fun p q => p.id < q.id)
    (hp : ∀ p ∈ ps, 0 < p.first) (hn : n ≤ c + 1) (hc : 0 < c) :
    Chain c 0 1 (shipped c ps) ↔ Whole c ps := by
  induction ps generalizing i n with
  | nil => simp [shipped, Chain, Whole]
  | cons p ps ih =>
    obtain ⟨hlink, htail⟩ := h
    obtain ⟨hids, hsorted⟩ := List.pairwise_cons.mp hs
    have hfirst : p.first ≤ c + 1 := by
      have := hlink.gap
      omega
    have hbefore : ∀ q ∈ shipped c ps, p.id < q.id := fun q hq => hids q (shipped_sublist.subset hq)
    by_cases hnext : c + 1 < p.next
    · have hcons : shipped c (p :: ps) = p :: shipped c ps := by
        rw [shipped, List.filter_cons_of_pos (by simp; omega), ← shipped]
      have hfst := link_first (k := p.id) hfirst (hp p List.mem_cons_self) hc
      rw [Whole, hcons, Chain, and_iff_right hfst, chain_uncovered htail hsorted (.inl hnext)]
      constructor
      · intro h e he hnil
        rcases List.mem_cons.mp he with rfl | he
        · omega
        · exact .inl (List.forall_mem_cons.mpr ⟨hids e he, h e he hnil⟩)
      · intro h e he hnil
        rcases h e (List.mem_cons_of_mem _ he) hnil with h | ⟨-, h⟩
        · exact (List.forall_mem_cons.mp h).2
        · have := h p List.mem_cons_self
          have := hids e he
          omega
    · have hcons : shipped c (p :: ps) = shipped c ps := by
        rw [shipped, List.filter_cons_of_neg (by simp [hnext]), ← shipped]
      rw [hcons, ih htail hsorted (fun q hq => hp q (List.mem_cons_of_mem _ hq)) (by omega), Whole,
        Whole, hcons, List.forall_mem_cons]
      exact (and_iff_right fun _ => .inr ⟨hc, hbefore⟩).symm

theorem chain_shipped (h : Chain c 0 1 ps) (hs : ps.Pairwise fun p q => p.id < q.id)
    (hp : ∀ p ∈ ps, 0 < p.first) : Chain c 0 1 (shipped c ps) ↔ Whole c ps := by
  rcases Nat.eq_zero_or_pos c with rfl | hc
  · rw [chain_uncovered h hs (.inr ⟨rfl, by decide⟩), Whole]
    simp
  · exact chain_covered h hs hp (by omega) hc

def Taken (checkpoint : Nat) (s : Segment) : Prop := s.first ≤ s.last ∧ checkpoint < s.last

/-- A retained segment without records lies after every segment that is taken, or before every one
under a checkpoint. -/
def Unbroken (checkpoint : Nat) (segments : List Segment) : Prop :=
  ∀ e ∈ segments, e.last < e.first → (∀ s ∈ segments, Taken checkpoint s → s.id < e.id) ∨
    0 < checkpoint ∧ ∀ s ∈ segments, Taken checkpoint s → e.id < s.id

theorem forall_segments {L : Layout} {P : Nat → Nat → Nat → Prop} :
    (∀ s ∈ L.segments, P s.id s.first s.last) ↔ ∀ p ∈ L.pieces, P p.id p.first (p.next - 1) := by
  simp [Layout.segments, Layout.pieces, sealedSegment, activeSegment, or_imp, forall_and]

theorem unbroken_segments {L : Layout} (hp : ∀ p ∈ L.pieces, 0 < p.first) :
    Unbroken c L.segments ↔ Whole c L.pieces := by
  have htaken {P : Nat → Prop} : (∀ s ∈ L.segments, Taken c s → P s.id) ↔
      ∀ p ∈ shipped c L.pieces, P p.id := by
    rw [show (∀ s ∈ L.segments, Taken c s → P s.id) ↔ _ from
      forall_segments (P := fun id first last => first ≤ last ∧ c < last → P id)]
    refine forall_congr' fun p => ?_
    rw [mem_shipped, and_imp (a := p ∈ L.pieces)]
    refine imp_congr_right fun hm => imp_congr_left ?_
    have := hp p hm
    omega
  have hiff : Unbroken c L.segments ↔ ∀ e ∈ L.segments, e.last < e.first →
      (∀ p ∈ shipped c L.pieces, p.id < e.id) ∨
        0 < c ∧ ∀ p ∈ shipped c L.pieces, e.id < p.id := by
    refine forall₂_congr fun e _ => imp_congr_right fun _ => ?_
    rw [htaken (P := fun id => id < e.id), htaken (P := fun id => e.id < id)]
  rw [hiff, Whole, forall_segments (P := fun id first last => last < first →
    (∀ p ∈ shipped c L.pieces, p.id < id) ∨ 0 < c ∧ ∀ p ∈ shipped c L.pieces, id < p.id)]
  refine forall₂_congr fun p hm => imp_congr_left ?_
  have := hp p hm
  omega

-- Upload

def reference (H : Digest) (p : Piece) : JournalRef where
  object := .new H (journalKey (toHex (H.hash (p.sealedBytes H)))) (p.sealedBytes H)
  id := p.id
  firstSequence := p.first
  lastSequence := p.next - 1

/-- The reference of a segment and the object it names. -/
def shippedObject (H : Digest) (p : Piece) : JournalRef × Bytes := (reference H p, p.sealedBytes H)

variable {fromSlice : Bytes → Except String (Wal.Record Op)}

/-- A stored record that is a frame of the sequence it is stored under. -/
def Framed (H : Digest) (fromSlice : Bytes → Except String (Wal.Record Op)) (item : Nat × Bytes) :
    Prop :=
  ∃ record, Wal.decode H fromSlice item.2 = .ok record ∧ record.sequence = item.1

theorem checkSequences_ok (h : ∀ item ∈ visited, Framed H fromSlice item) :
    checkSequences H fromSlice message visited = .ok () := by
  induction visited with
  | nil => rfl
  | cons item visited ih =>
    obtain ⟨record, hdecode, hsequence⟩ := h item List.mem_cons_self
    obtain ⟨sequence, bytes⟩ := item
    rw [checkSequences, hdecode, Result.ok_bind, Result.ensure_pos hsequence, Result.ok_bind]
    exact ih fun item hi => h item (List.mem_cons_of_mem _ hi)

structure Shippable (H : Digest) (fromSlice : Bytes → Except String (Wal.Record Op))
    (limits : JournalConfig) (p : Piece) : Prop where
  ok : p.Ok limits
  nonempty : p.first < p.next
  bytes : p.bodySize + reservedSealBytes ≤ min limits.maxTotalBytes Wal.maxFrameBytes
  framed : ∀ item ∈ numbered p.first p.records, Framed H fromSlice item

theorem items_shippable (hv : limits.Valid) (h : Shippable H fromSlice limits p) :
    (replay p.first p.groups).flatMap ReplayGroup.items = numbered p.first p.records := by
  refine items_replay fun g hg r hr => ?_
  have hrecord := (h.ok.groups g hg).record r hr
  have := hv.record
  have := hv.frame
  omega

theorem inspectExpected_shippable (hv : limits.Valid) (h : Shippable H fromSlice limits p) :
    inspectExpected H limits (sealedDescriptor p) (p.sealedBytes H) =
      .ok (replay p.first p.groups) := by
  obtain ⟨hash, hi⟩ : ∃ hash, inspect H limits
      ⟨p.id, (p.sealedBytes H).length, p.first, p.next - 1⟩ false (p.sealedBytes H) p.first =
        .ok (replay p.first p.groups, ⟨p.next, (p.sealedBytes H).length, true, false, hash⟩) :=
    inspect_sealed hv h.ok.fitting (Nat.lt_of_succ_lt h.ok.id_lt)
  rw [length_sealedBytes] at hi
  rw [inspectExpected, sealedDescriptor]
  dsimp only
  rw [hi, Result.ok_bind]
  dsimp only
  rw [Result.ensure_pos ⟨rfl, rfl, rfl, h.ok.last_succ⟩, Result.ok_bind]

theorem checkDescriptor_shippable (hv : limits.validate = .ok ())
    (h : Shippable H fromSlice limits p) :
    checkDescriptor limits (sealedDescriptor p) = .ok () := by
  have hnext := h.ok.next_lt
  have hfirst := h.ok.first_pos
  have hne := h.nonempty
  rw [checkDescriptor, hv, Result.ok_bind, sealedDescriptor, Result.ensure_pos h.ok.id_pos,
    Result.ok_bind, Result.ensure_pos ⟨hfirst, by dsimp only; omega⟩, Result.ok_bind]
  exact Result.ensure_pos (by dsimp only; omega)

theorem inBounds_shippable (h : Shippable H fromSlice limits p) :
    (sealedDescriptor p).InBounds limits := by
  have hbytes := h.bytes
  have hheader := p.headerBytes_le
  exact ⟨Nat.add_le_add_right hheader _, h.ok.fits, by simp only [sealedDescriptor]; omega⟩

theorem validateSealedBytes_shippable (hv : limits.validate = .ok ())
    (h : Shippable H fromSlice limits p) :
    validateSealedBytes H limits (sealedDescriptor p) (p.sealedBytes H) =
      .ok (replay p.first p.groups) := by
  have hlen : (sealedDescriptor p).bytes = (p.sealedBytes H).length := (length_sealedBytes H p).symm
  rw [validateSealedBytes, checkDescriptor_shippable hv h, Result.ok_bind,
    Result.ensure_pos ⟨hlen, inBounds_shippable h⟩, Result.ok_bind]
  exact inspectExpected_shippable (JournalConfig.valid hv) h

theorem validateSealedSegment_shippable (hv : limits.validate = .ok ())
    (h : Shippable H fromSlice limits p) :
    validateSealedSegment H limits (sealedDescriptor p) (p.sealedBytes H) =
      .ok (replay p.first p.groups) := by
  have hlen : (p.sealedBytes H).length = (sealedDescriptor p).bytes := length_sealedBytes H p
  rw [validateSealedSegment, checkDescriptor_shippable hv h, Result.ok_bind,
    Result.ensure_pos (inBounds_shippable h), Result.ok_bind, Result.ensure_pos hlen,
    Result.ok_bind]
  exact inspectExpected_shippable (JournalConfig.valid hv) h

theorem readBounded_ok (hs : (files.map Prod.fst).Nodup) (hf : (k, content) ∈ files)
    (hl : content.length ≤ m) : readBounded files k m = .ok content := by
  rw [readBounded, find?_key hs hf]
  dsimp only
  rw [Result.ensure_pos hl, Result.ok_bind]

theorem upload_shippable (hv : limits.validate = .ok ()) (hs : (files.map Prod.fst).Nodup)
    (hq : ∀ p ∈ qs, Shippable H fromSlice limits p) (hf : ∀ p ∈ qs, sealedFile H p ∈ files) :
    upload H fromSlice limits files (qs.map sealedDescriptor) = .ok (qs.map (shippedObject H)) := by
  induction qs with
  | nil => rfl
  | cons p qs ih =>
    have h := hq p List.mem_cons_self
    have hbytes := h.bytes
    have hrest := ih (fun q hmem => hq q (List.mem_cons_of_mem _ hmem))
      fun q hmem => hf q (List.mem_cons_of_mem _ hmem)
    have hlen : (p.sealedBytes H).length = (sealedDescriptor p).bytes := length_sealedBytes H p
    have hid : 0 < (sealedDescriptor p).id := h.ok.id_pos
    have hmax : (sealedDescriptor p).bytes ≤ limits.segmentBytes ∧
        (sealedDescriptor p).bytes ≤ Wal.maxFrameBytes :=
      ⟨h.ok.fits, hbytes.trans (Nat.min_le_right _ _)⟩
    have hread : readBounded files (sealedDescriptor p).id (sealedDescriptor p).bytes =
        .ok (p.sealedBytes H) := readBounded_ok hs (hf p List.mem_cons_self) hlen.le
    rw [List.map_cons, upload, fileName, Result.ensure_pos hid, Result.ok_bind,
      Result.ensure_pos hmax, Result.ok_bind, hread,
      Result.ok_bind, Result.ensure_pos hlen, Result.ok_bind, validateSealedBytes_shippable hv h,
      Result.ok_bind, items_shippable (JournalConfig.valid hv) h, checkSequences_ok h.framed,
      Result.ok_bind, hrest, Result.ok_bind]
    rfl

theorem validate_reference (h : Shippable H fromSlice limits p) :
    (reference H p).object.validate keyStart keyEnd = .ok () := by
  have hlen := length_sealedBytes H p
  have hbytes := h.bytes
  refine ObjectRef.validate_new (fun hnil => ?_) (by omega) (by decide) (by decide)
  rw [hnil] at hlen
  simp [reservedSealBytes] at hlen

theorem key_inj (h : (reference H p).object.key = (reference H q).object.key) :
    H.hash (p.sealedBytes H) = H.hash (q.sealedBytes H) :=
  toHex_injective (List.append_cancel_left (List.append_cancel_right h))

theorem validateRefsFrom_shippable (hq : ∀ p ∈ qs, Shippable H fromSlice limits p)
    (hids : qs.Pairwise fun p q => p.id ≠ q.id ∧
      (reference H p).object.key ≠ (reference H q).object.key)
    (hnames : ∀ p ∈ qs, p.id ∉ names ∧ (reference H p).object.key ∉ keys)
    (htiles : ∀ last ∈ previous, last + 1 < 2 ^ 64 ∧ Tiles (last + 1) qs)
    (hnext : ∀ p ∈ qs.head?, Tiles p.next qs.tail) :
    validateRefsFrom names keys previous (qs.map (reference H)) = .ok () := by
  induction qs generalizing names keys previous with
  | nil => rfl
  | cons p qs ih =>
    have h := hq p List.mem_cons_self
    obtain ⟨hhead, htail⟩ := List.pairwise_cons.mp hids
    have hne := h.nonempty
    have hfirst := h.ok.first_pos
    have htail' : Tiles p.next qs := hnext p rfl
    have hlast : p.next - 1 + 1 = p.next := h.ok.last_succ.symm
    have hkey : (reference H p).object.key = journalKey (reference H p).object.digest := rfl
    have hid : 0 < (reference H p).id := h.ok.id_pos
    have hname : (reference H p).id ∉ names ∧ (reference H p).object.key ∉ keys :=
      hnames p List.mem_cons_self
    have hrange : 0 < (reference H p).firstSequence ∧
        (reference H p).firstSequence ≤ (reference H p).lastSequence := by
      simp only [reference]
      omega
    have hprevious : ∀ last ∈ previous, last + 1 < 2 ^ 64 ∧
        last + 1 = (reference H p).firstSequence :=
      fun last hlast => ⟨(htiles last hlast).1, (htiles last hlast).2.1.symm⟩
    rw [List.map_cons, validateRefsFrom, validate_reference h, Result.ok_bind,
      Result.ensure_pos hkey, Result.ok_bind, fileName, Result.ensure_pos hid, Result.ok_bind,
      Result.ensure_pos hname, Result.ok_bind, Result.ensure_pos hrange, Result.ok_bind,
      Result.ensure_pos hprevious, Result.ok_bind]
    refine ih (fun q hmem => hq q (List.mem_cons_of_mem _ hmem)) htail ?_ ?_ ?_
    · intro q hmem
      have hnames := hnames q (List.mem_cons_of_mem _ hmem)
      have hhead := hhead q hmem
      simp only [List.mem_cons, not_or]
      exact ⟨⟨hhead.1.symm, hnames.1⟩, hhead.2.symm, hnames.2⟩
    · rintro _ ⟨⟩
      have hnext := h.ok.next_lt
      simp only [reference, hlast]
      exact ⟨hnext, htail'⟩
    · cases qs with
      | nil => simp
      | cons q qs => exact fun _ hq => by cases hq; exact htail'.2

-- Restore

/-- The directory of a restored journal: the shipped objects, installed and
synced. -/
def installed (objects : List (JournalRef × Bytes)) : Directory :=
  objects.map fun o => (o.1.id, .settled o.2)

def headOf (sequence : Nat) (objects : List (JournalRef × Bytes)) : RemoteHead :=
  ⟨sequence, [], objects.map Prod.fst⟩

/-- The references of a ship are accepted, and in whatever order its files are
listed, they open and are scanned as the records of `K` above the checkpoint. -/
def Restores (H : Digest) (fromSlice : Bytes → Except String (Wal.Record Op))
    (limits : JournalConfig) (checkpoint sequence : Nat) (K : List Bytes)
    (objects : List (JournalRef × Bytes)) : Prop :=
  validateRefs (headOf sequence objects) = .ok () ∧
  validateTransport (headOf sequence objects) ⟨checkpoint, true⟩ = .ok () ∧
  ∀ directory : Directory, directory.Perm (installed objects) →
    (∃ opened, openWithCheckpoint H limits checkpoint (view directory) = .ok opened) ∧
    scanInstalled H fromSlice limits directory (headOf sequence objects) ⟨checkpoint, true⟩ =
      .ok (above checkpoint (numbered 1 K))

theorem view_installed {directory : Directory}
    (h : directory.Perm (installed (qs.map (shippedObject H)))) :
    (view directory).Perm (qs.map (sealedFile H)) := by
  have hperm : (view directory).Perm (view (installed (qs.map (shippedObject H)))) :=
    (h.filter _).map _
  have hview : view (installed (qs.map (shippedObject H))) = qs.map (sealedFile H) := by
    simp only [view, installed, List.map_map]
    rw [List.filter_eq_self.mpr]
    · rw [List.map_map]
      rfl
    · intro e he
      obtain ⟨p, -, rfl⟩ := List.mem_map.mp he
      rfl
  exact hview ▸ hperm

theorem run_syncOps_installed {directory : Directory}
    (h : directory.Perm (installed objects)) : run directory (syncOps L) = directory := by
  refine Disk.run_eq_self_of_settled (fun e he => ?_) fun op hop => mem_syncOps hop
  obtain ⟨o, -, rfl⟩ := List.mem_map.mp (h.mem_iff.mp he)
  rfl

theorem getLast?_reference : ((p :: qs).map (reference H)).getLast?.map JournalRef.lastSequence =
    some (endNext p.next qs - 1) := by
  rw [List.getLast?_map, Option.map_map, List.getLast?_cons]
  unfold endNext
  cases qs.getLast? <;> rfl

section
variable {K : List Bytes} (h : Stored limits c K ⟨ps, none⟩)
include h

theorem stored_reach : max (endNext 1 ps) (c + 1) = K.length + 1 := by
  simpa [Layout.next] using h.reach

theorem stored_shipped (hc : Chain c 0 1 (shipped c ps)) :
    Stored limits c K ⟨shipped c ps, none⟩ := by
  have hsub : (shipped c ps).Sublist ps := shipped_sublist
  have hreach := stored_reach h
  refine ⟨⟨?_, ?_, by simpa using hc, ?_, ?_⟩, ?_, ?_⟩
  · simpa using fun p hp => h.prior.pieces p (hsub.subset hp)
  · simpa using h.prior.sorted.sublist hsub
  · simpa using hsub.length_le.trans (by simpa using h.count)
  · have hsize : ((shipped c ps).map fun p => p.bodySize + reservedSealBytes).sum ≤
        (ps.map fun p => p.bodySize + reservedSealBytes).sum :=
      (hsub.map _).sum_le_sum fun _ _ => Nat.zero_le _
    have hbudget := h.budget
    simp only [Layout.reserved, Layout.bytes, Layout.sealedSize] at hbudget ⊢
    omega
  · simpa using fun p hp => h.prior.records p (hsub.subset hp)
  · rcases shipped_cases h.prior.chain (by omega) with ⟨hnil, hend⟩ | ⟨p, qs, hcons, -, -, -, hend⟩
    · simp only [Layout.next, pieces_sealed, hnil, endNext_nil]
      omega
    · simp only [Layout.next, pieces_sealed, hcons, endNext_cons, hend]
      exact hreach

theorem bytes_le_of_mem (hp : p ∈ ps) : p.bodySize + reservedSealBytes ≤ limits.maxTotalBytes := by
  have hsum := List.single_le_sum (l := ps.map fun p => p.bodySize + reservedSealBytes)
    (fun _ _ => Nat.zero_le _) _ (List.mem_map_of_mem hp)
  have hbudget := h.budget
  simp only [Layout.reserved, Layout.bytes, Layout.sealedSize] at hbudget
  simp only [Option.map_none, Option.getD_none] at hbudget
  omega

theorem shippable_of_stored (hmax : limits.segmentBytes ≤ Wal.maxFrameBytes)
    (hK : ∀ item ∈ numbered 1 K, Framed H fromSlice item) (hp : p ∈ shipped c ps) :
    Shippable H fromSlice limits p := by
  obtain ⟨hp, hne, -⟩ := mem_shipped.mp hp
  have hok := h.prior.pieces p hp
  refine ⟨hok, hne, Nat.le_min.mpr ⟨bytes_le_of_mem h hp, hok.fits.trans hmax⟩, fun item hi => ?_⟩
  exact hK item (mem_numbered hok.first_pos (h.prior.records p hp) hi)

theorem validateRefs_shipped (hq : ∀ p ∈ shipped c ps, Shippable H fromSlice limits p)
    (hH : ∀ p ∈ shipped c ps, ∀ q ∈ shipped c ps,
      H.hash (p.sealedBytes H) = H.hash (q.sealedBytes H) → p = q) :
    validateRefs (headOf sequence ((shipped c ps).map (shippedObject H))) = .ok () := by
  have hsorted : (shipped c ps).Pairwise fun p q => p.id < q.id :=
    h.prior.sorted.sublist shipped_sublist
  have hmap : ((shipped c ps).map (shippedObject H)).map Prod.fst =
      (shipped c ps).map (reference H) := List.map_map
  rw [validateRefs, headOf, Result.ensure_pos (.inl rfl), Result.ok_bind, hmap]
  refine validateRefsFrom_shippable hq ?_ (by simp) (by simp) ?_
  · refine hsorted.imp_of_mem fun {p q} hp hq hlt => ⟨Nat.ne_of_lt hlt, fun hkey => ?_⟩
    exact absurd hlt (by rw [hH p hp q hq (key_inj hkey)]; omega)
  · rcases shipped_cases h.prior.chain (by omega) with ⟨hnil, -⟩ | ⟨p, qs, hcons, -, -, ht, -⟩
    · simp [hnil]
    · rw [hcons]
      rintro _ ⟨⟩
      exact ht

theorem validateTransport_shipped (hc : c + 1 < 2 ^ 64)
    (hrefs : validateRefs (headOf K.length ((shipped c ps).map (shippedObject H))) = .ok ()) :
    validateTransport (headOf K.length ((shipped c ps).map (shippedObject H))) ⟨c, true⟩ =
      .ok () := by
  have hreach := stored_reach h
  have hle : c ≤ K.length := h.checkpoint_le
  have hmap : ((shipped c ps).map (shippedObject H)).map Prod.fst =
      (shipped c ps).map (reference H) := List.map_map
  rw [validateTransport, hrefs, Result.ok_bind, headOf, hmap, Result.ensure_pos hle, Result.ok_bind]
  rw [if_pos rfl, Result.ensure_pos rfl, Result.ok_bind]
  rcases shipped_cases h.prior.chain (by omega) with
    ⟨hnil, hend⟩ | ⟨p, qs, hcons, hfirst, hnext, -, hend⟩
  · rw [if_pos (show c = K.length by omega), hnil]
    exact Result.ensure_pos rfl
  · have hmem : p ∈ ps := (mem_shipped.mp (hcons ▸ List.mem_cons_self)).1
    have hlast := h.prior.chain.next_le_endNext hmem
    have hcover : (reference H p).firstSequence ≤ c + 1 ∧ c + 1 ≤ (reference H p).lastSequence := by
      simp only [reference]
      omega
    have htail : ((p :: qs).map (reference H)).getLast?.map JournalRef.lastSequence =
        some K.length := by
      rw [getLast?_reference, hend]
      congr 1
      omega
    rw [if_neg (show ¬c = K.length by omega), hcons]
    simp only [List.map_cons, List.head?_cons]
    rw [Result.ensure_pos hc, Result.ok_bind, Result.ensure_pos hcover, Result.ok_bind]
    exact Result.ensure_pos htail

end

theorem validateInstalled_shippable (hv : limits.validate = .ok ())
    (hs : (files.map Prod.fst).Nodup) (hq : ∀ p ∈ qs, Shippable H fromSlice limits p)
    (hf : ∀ p ∈ qs, sealedFile H p ∈ files) :
    validateInstalled H limits files (qs.map (reference H)) = .ok () := by
  induction qs with
  | nil => rfl
  | cons p qs ih =>
    have h := hq p List.mem_cons_self
    have hfind : files.find? (·.1 == (reference H p).id) = some (p.id, p.sealedBytes H) :=
      find?_key hs (hf p List.mem_cons_self)
    have hdescriptor : (reference H p).descriptor = sealedDescriptor p := by
      simp only [reference, JournalRef.descriptor, ObjectRef.new, length_sealedBytes]
      rfl
    rw [List.map_cons, validateInstalled, hfind]
    dsimp only
    rw [hdescriptor, validateSealedSegment_shippable hv h, Result.ok_bind]
    exact ih (fun q hmem => hq q (List.mem_cons_of_mem _ hmem))
      fun q hmem => hf q (List.mem_cons_of_mem _ hmem)

theorem chain_of_restores (hv : limits.validate = .ok ()) (h : Stored limits c K ⟨ps, none⟩)
    (hq : ∀ p ∈ shipped c ps, Shippable H fromSlice limits p)
    (hr : Restores H fromSlice limits c K.length K ((shipped c ps).map (shippedObject H))) :
    Chain c 0 1 (shipped c ps) := by
  have hsorted : (shipped c ps).Pairwise fun p q => p.id < q.id :=
    h.prior.sorted.sublist shipped_sublist
  obtain ⟨-, -, hrestore⟩ := hr
  obtain ⟨⟨opened, ho⟩, -⟩ := hrestore _ (.refl _)
  obtain ⟨recovered, hrec⟩ := recoverSegments_of_open ho (view_installed (.refl _))
    (List.pairwise_map.mpr hsorted)
  exact chain_of_recoverSegments (JournalConfig.valid hv) (fun p hp => (hq p hp).ok) (fun _ => rfl)
    hrec

theorem restores_of_chain (hv : limits.validate = .ok ()) (hc : c + 1 < 2 ^ 64)
    (h : Stored limits c K ⟨ps, none⟩)
    (hq : ∀ p ∈ shipped c ps, Shippable H fromSlice limits p)
    (hH : ∀ p ∈ shipped c ps, ∀ q ∈ shipped c ps,
      H.hash (p.sealedBytes H) = H.hash (q.sealedBytes H) → p = q)
    (hchain : Chain c 0 1 (shipped c ps)) :
    Restores H fromSlice limits c K.length K ((shipped c ps).map (shippedObject H)) := by
  have hvalid := JournalConfig.valid hv
  have hL := stored_shipped h hchain
  have hrefs : validateRefs (headOf K.length ((shipped c ps).map (shippedObject H))) = .ok () :=
    validateRefs_shipped h hq hH
  have htransport := validateTransport_shipped h hc hrefs
  refine ⟨hrefs, htransport, fun directory hd => ?_⟩
  have hview := view_installed hd
  have hopen := openWithCheckpoint_sealed (H := H) hv hc hL.toOk hview
  refine ⟨⟨_, hopen⟩, ?_⟩
  have hlayout : Layout.files H ⟨shipped c ps, none⟩ = (shipped c ps).map (sealedFile H) :=
    List.append_nil _
  have hnodup : ((view directory).map Prod.fst).Nodup :=
    (hview.map Prod.fst).nodup_iff.mpr (hlayout ▸ hL.nodup_files)
  have hfiles : ∀ p ∈ shipped c ps, sealedFile H p ∈ view directory :=
    fun p hp => hview.mem_iff.mpr (List.mem_map_of_mem hp)
  have hinstalled := validateInstalled_shippable hv hnodup hq hfiles
  have hscan : scan H (reopened H limits c 0 ⟨shipped c ps, none⟩) (view directory) =
      .ok (replayed (shipped c ps)) := by
    rw [hL.scan hvalid hnodup fun file hf => hview.mem_iff.mpr (hlayout ▸ hf), pieces_sealed]
  have hdurable : (reopened H limits c 0 ⟨shipped c ps, none⟩).durableSequence = K.length :=
    (hL.matches_reopened (H := H) hc).durable
  have hframed : ∀ item ∈ items (shipped c ps), Framed H fromSlice item := by
    intro item hi
    obtain ⟨p, hp, hi⟩ := List.mem_flatMap.mp hi
    exact (hq p hp).framed item hi
  have hmap : ((shipped c ps).map (shippedObject H)).map Prod.fst =
      (shipped c ps).map (reference H) := List.map_map
  rw [scanInstalled, htransport, Result.ok_bind, headOf, hmap]
  dsimp only
  rw [hinstalled, Result.ok_bind, hopen, Result.ok_bind]
  dsimp only
  rw [Result.ensure_pos ⟨hdurable, rfl⟩, Result.ok_bind, run_syncOps_installed hd, hscan,
    Result.ok_bind, items_replayed hvalid fun p hp => (hq p hp).ok, checkSequences_ok hframed,
    Result.ok_bind]
  have habove : above c (items (shipped c ps)) = above c (numbered 1 K) := by
    simpa using hL.above_eq
  exact congrArg Except.ok habove

theorem id_eq_of_sealedBytes {p q : Piece} (hp : p.Ok limits) (hq : q.Ok limits)
    (h : p.sealedBytes H = q.sealedBytes H) : p.id = q.id := by
  have hid {p : Piece} (hp : p.Ok limits) : Bytes.word (p.sealedBytes H) 16 = p.id := by
    have := hp.id_lt
    simp only [Piece.sealedBytes, Piece.body, segmentHeader, List.append_assoc]
    exact word_headerFields_id (by omega)
  rw [← hid hp, h, hid hq]

theorem eq_of_id {p q : Piece} (hs : ps.Pairwise fun p q => p.id < q.id) (hp : p ∈ ps)
    (hq : q ∈ ps) (h : p.id = q.id) : p = q := by
  have hnodup : (ps.map Piece.id).Nodup :=
    (List.pairwise_map.mpr hs).imp fun h => Nat.ne_of_lt h
  exact List.inj_on_of_nodup_map hnodup hp hq h

def CollisionFree (H : Digest) (objects : List (JournalRef × Bytes)) : Prop :=
  ∀ a ∈ objects, ∀ b ∈ objects, H.hash a.2 = H.hash b.2 → a.2 = b.2

theorem segmentBytes_le {c : CommitLog.Config} (h : CommitLog.config c = .ok limits) :
    limits.validate = .ok () ∧ limits.segmentBytes ≤ Wal.maxFrameBytes := by
  simp only [CommitLog.config, ensure_bind] at h
  obtain ⟨-, h⟩ := h
  obtain ⟨_, hv, h⟩ := Result.bind_ok.mp h
  cases h
  refine ⟨hv, ?_⟩
  dsimp only
  unfold Wal.maxFrameBytes
  omega

theorem capture_restores_iff {s : CommitLog.State} (hc : CommitLog.config s.config = .ok limits)
    (hm : Matches H limits s.checkpointSequence K L s.journal)
    (hcap : capture H s sequence used = .ok (ops, s', .ok D))
    (hK : ∀ item ∈ numbered 1 K, Framed H fromSlice item) :
    ∃ objects, upload H fromSlice limits (view (run (settledDir H L) ops)) D = .ok objects ∧
      objects.map (fun o => o.1.descriptor) = D ∧
      (Restores H fromSlice limits s.checkpointSequence sequence K objects →
        Unbroken s.checkpointSequence s.journal.segments) ∧
      (CollisionFree H objects → Unbroken s.checkpointSequence s.journal.segments →
        Restores H fromSlice limits s.checkpointSequence sequence K objects) := by
  obtain ⟨hv, hmax⟩ := segmentBytes_le hc
  obtain ⟨rfl, rfl, hrun⟩ := capture_ok hm hcap
  obtain ⟨j', -, hclose, -⟩ := hm.sealActive
  have h : Stored limits s.checkpointSequence K ⟨L.pieces, none⟩ := hclose.stored
  have hq : ∀ p ∈ shipped s.checkpointSequence L.pieces, Shippable H fromSlice limits p :=
    fun p hp => shippable_of_stored h hmax hK hp
  have hview : view (settledDir H L.close) = L.pieces.map (sealedFile H) := by
    rw [view_settledDir]
    exact List.append_nil _
  have hnodup : ((L.pieces.map (sealedFile H)).map Prod.fst).Nodup := by
    have := h.nodup_files (H := H)
    rwa [Layout.files, Option.toList_none, List.map_nil, List.append_nil] at this
  have hfiles : ∀ p ∈ shipped s.checkpointSequence L.pieces,
      sealedFile H p ∈ L.pieces.map (sealedFile H) :=
    fun p hp => List.mem_map_of_mem (shipped_sublist.subset hp)
  have hpos : ∀ p ∈ L.pieces, 0 < p.first := fun p hp => (h.prior.pieces p hp).first_pos
  have hiff : Chain s.checkpointSequence 0 1 (shipped s.checkpointSequence L.pieces) ↔
      Unbroken s.checkpointSequence s.journal.segments := by
    rw [chain_shipped h.prior.chain h.prior.sorted hpos, hm.segments, unbroken_segments hpos]
  refine ⟨(shipped s.checkpointSequence L.pieces).map (shippedObject H), ?_, ?_,
    fun hr => hiff.mp (chain_of_restores hv h hq hr), fun hH hu =>
    restores_of_chain hv hm.root_lt h hq ?_ (hiff.mpr hu)⟩
  · rw [hrun, hview]
    exact upload_shippable hv hnodup hq hfiles
  · rw [List.map_map]
    refine List.map_congr_left fun p _ => ?_
    simp only [Function.comp_apply, shippedObject, reference, JournalRef.descriptor, ObjectRef.new,
      length_sealedBytes]
    rfl
  · intro p hp q hq' hhash
    have hbytes : p.sealedBytes H = q.sealedBytes H :=
      hH _ (List.mem_map_of_mem hp) _ (List.mem_map_of_mem hq') hhash
    exact eq_of_id h.prior.sorted (shipped_sublist.subset hp) (shipped_sublist.subset hq')
      (id_eq_of_sealedBytes (hq p hp).ok (hq q hq').ok hbytes)

-- The journal of a database

/-- A journal, and whether the database on it is still being opened. -/
structure Served where
  system : System
  opening : Bool

/-- `open_locked` ends in `gc_locked`, which reclaims through the checkpoint of the root; only then
is the database used. -/
inductive Serve (H : Digest) (limits : JournalConfig) : Served → Served → Prop where
  | reopen (h : Step H limits y .reopen y') : Serve H limits ⟨y, false⟩ ⟨y', true⟩
  | checkpoint (h : Step H limits y (.checkpoint c) y') : Serve H limits ⟨y, o⟩ ⟨y', o⟩
  | reclaim (hj : y.journal = some j) (h : (Call.reclaim y.root).execute H j = .ok (ops, j')) :
      Serve H limits ⟨y, true⟩ ⟨{ y with disk := run y.disk ops, journal := some j' }, false⟩
  | call (h : Step H limits y (.call op) y') : Serve H limits ⟨y, false⟩ ⟨y', false⟩
  | cut (h : Step H limits y (.cut op n) y') (ho : o = true → op = .reclaim y.root) :
      Serve H limits ⟨y, o⟩ ⟨y', false⟩
  | crash (h : Step H limits y .crash y') : Serve H limits ⟨y, o⟩ ⟨y', false⟩
  | cutReopen (h : Step H limits y (.cutReopen n) y') : Serve H limits ⟨y, false⟩ ⟨y', false⟩

def shipping (H : Digest) (limits : JournalConfig) : Machine Served Unit where
  init y := y = ⟨⟨[], none, 0, [], []⟩, false⟩
  step y _ y' := Serve H limits y y'

theorem journal_reachable (h : (shipping H limits).Reachable y) :
    (machine H limits).Reachable y.system := by
  induction h with
  | init hi => exact hi ▸ .init rfl
  | step _ hs ih =>
    cases hs with
    | reclaim hj he =>
      have hstep : Step H limits _ (.call (.reclaim _)) _ := .call hj (Nat.le_refl _) he
      rw [Call.records, List.append_nil] at hstep
      exact ih.step hstep
    | reopen h | checkpoint h | call h | cut h | crash h | cutReopen h => exact ih.step h

/-- In every run of a database, what is captured of its journal at the durable checkpoint is
restored exactly when the segments it retained are unbroken. -/
theorem shipped_tail_restores_iff {y : Served} {s : CommitLog.State}
    (hc : CommitLog.config s.config = .ok limits) (hr : (shipping H limits).Reachable y)
    (hj : y.system.journal = some s.journal) (hroot : y.system.root = s.checkpointSequence)
    (hcap : capture H s sequence used = .ok (ops, s', .ok D))
    (hK : ∀ item ∈ numbered 1 y.system.committed, Framed H fromSlice item) :
    ∃ objects, upload H fromSlice limits (view (run y.system.disk ops)) D = .ok objects ∧
      objects.map (fun o => o.1.descriptor) = D ∧
      (Restores H fromSlice limits y.system.root sequence y.system.committed objects →
        Unbroken y.system.root s.journal.segments) ∧
      (CollisionFree H objects → Unbroken y.system.root s.journal.segments →
        Restores H fromSlice limits y.system.root sequence y.system.committed objects) := by
  obtain ⟨L, hdisk, hm⟩ := matches_of_reachable (segmentBytes_le hc).1 (journal_reachable hr) hj
  rw [hroot] at hm ⊢
  rw [hdisk]
  exact capture_restores_iff hc hm hcap hK

-- Ships of two records

/-- The JSON text of a record that drops the job `a` with the stamp `s`. -/
def payload (sequence : Nat) : Bytes :=
  Text.utf8 ("\x7b\"format_version\":1,\"sequence\":".toList ++ Nat.toDigits 10 sequence ++
    ",\"operation\":\x7b\"operation\":\"drop_job\",\"name\":\"a\",\"stamp\":\"s\"\x7d\x7d".toList)

def record (sequence : Nat) : Bytes := Wal.frame blake3 (payload sequence)

def readRecord (bytes : Bytes) : Except String (Wal.Record (String × String)) :=
  if bytes = payload 1 then .ok (.new 1 ("a", "s"))
  else if bytes = payload 2 then .ok (.new 2 ("a", "s"))
  else .error "expected value"

theorem framed_records : ∀ item ∈ numbered 1 [record 1, record 2],
    Framed blake3 readRecord item := by
  have hframed {n : Nat} (hlen : 16 + (payload n).length ≤ Wal.maxFrameBytes - 32)
      (hread : readRecord (payload n) = .ok (.new n ("a", "s")))
      (hpos : 0 < n) : Framed blake3 readRecord (n, record n) := by
    have hencode : Wal.encodePayload blake3 (payload n) Wal.maxFrameBytes = .ok (record n) := by
      rw [Wal.encodePayload, Result.ensure_pos (by decide), Result.ok_bind,
        Result.ensure_pos hlen, Result.ok_bind]
      rfl
    exact ⟨_, Wal.decode_encodePayload hencode (Nat.le_refl _) hread rfl hpos, rfl⟩
  intro item hi
  rcases List.mem_cons.mp hi with rfl | hi
  · exact hframed (by decide +kernel) rfl (by decide)
  · rw [List.mem_singleton.mp hi]
    exact hframed (by decide +kernel) rfl (by decide)

/-- The engine over an open journal, before any checkpoint. -/
def engine (j : Journal) : CommitLog.State :=
  ⟨CommitLog.smallConfig, j, j.diskBytes, 0, 0, false⟩

-- Runs of a database that can be computed

inductive Act where
  | opens
  | append (records : List Bytes)
  | ship
  /-- An append that is cut short after some of its I/O. -/
  | cut (records : List Bytes) (n : Nat)

def opened (y : System) : Except String Journal := y.journal.elim (.error "closed") .ok

theorem opened_ok (h : opened y = .ok j) : y.journal = some j := by
  unfold opened at h
  cases hj : y.journal with
  | none => simp [hj] at h
  | some j' => simpa [hj] using h

/-- The state a step leaves; nothing that a cut append wrote may be unsynced. -/
def act (y : System) : Act → Except String System
  | .opens => do
    ensure (y.journal = none) "open"
    let (ops, j) ← openWithCheckpoint blake3 CommitLog.smallLimits y.root (view y.disk)
    let (ops', j') ← (Call.reclaim y.root).execute blake3 j
    .ok ⟨run (run y.disk ops) ops', some j', y.root,
      y.committed ++ y.inflight.take (j.durableSequence - y.committed.length), []⟩
  | .append records => do
    let j ← opened y
    let (ops, j) ← (Call.append records).execute blake3 j
    .ok { y with
      disk := run y.disk ops
      journal := some j
      committed := y.committed ++ records }
  | .ship => do
    let j ← opened y
    let (ops, j) ← Call.sealSnapshot.execute blake3 j
    .ok { y with disk := run y.disk ops, journal := some j }
  | .cut records n => do
    let j ← opened y
    let (ops, _) ← (Call.append records).execute blake3 j
    ensure (∀ entry ∈ run y.disk (ops.take n), entry.2 = .settled entry.2.content) "unsynced"
    .ok { y with disk := run y.disk (ops.take n), journal := none, inflight := records }

theorem reachable_act (hr : (shipping blake3 CommitLog.smallLimits).Reachable ⟨y, false⟩)
    (h : act y a = .ok y') : (shipping blake3 CommitLog.smallLimits).Reachable ⟨y', false⟩ := by
  cases a with
  | opens =>
    obtain ⟨hj, h⟩ := ensure_bind.mp h
    obtain ⟨⟨ops, j⟩, ho, h⟩ := bind_ok.mp h
    obtain ⟨⟨ops', j'⟩, he, h⟩ := bind_ok.mp h
    cases h
    have hopen := hr.step (a := ()) (.reopen (.reopen hj (.refl _) ho))
    exact hopen.step (a := ()) (.reclaim rfl he)
  | append records =>
    obtain ⟨j, hj, h⟩ := bind_ok.mp h
    obtain ⟨⟨ops, j'⟩, he, h⟩ := bind_ok.mp h
    cases h
    have hs : Step blake3 CommitLog.smallLimits y (.call (.append records)) _ :=
      .call (opened_ok hj) trivial he
    exact hr.step (a := ()) (.call hs)
  | ship =>
    obtain ⟨j, hj, h⟩ := bind_ok.mp h
    obtain ⟨⟨ops, j'⟩, he, h⟩ := bind_ok.mp h
    cases h
    have hs : Step blake3 CommitLog.smallLimits y (.call .sealSnapshot) _ :=
      .call (opened_ok hj) trivial he
    rw [Call.records, List.append_nil] at hs
    exact hr.step (a := ()) (.call hs)
  | cut records n =>
    obtain ⟨j, hj, h⟩ := bind_ok.mp h
    obtain ⟨⟨ops, j'⟩, he, h⟩ := bind_ok.mp h
    obtain ⟨hd, h⟩ := ensure_bind.mp h
    cases h
    have hs : Step blake3 CommitLog.smallLimits y (.cut (.append records) n) _ :=
      .cut (opened_ok hj) trivial he (.refl_of_settled hd)
    exact hr.step (a := ()) (.cut hs (by simp))

theorem reachable_acts {acts : List Act}
    (h : acts.foldlM act ⟨[], none, 0, [], []⟩ = .ok y) :
    (shipping blake3 CommitLog.smallLimits).Reachable ⟨y, false⟩ := by
  suffices ∀ {x}, (shipping blake3 CommitLog.smallLimits).Reachable ⟨x, false⟩ →
      acts.foldlM act x = .ok y → (shipping blake3 CommitLog.smallLimits).Reachable ⟨y, false⟩ from
    this (.init rfl) h
  clear h
  induction acts with
  | nil =>
    rintro x hr ⟨⟩
    exact hr
  | cons a acts ih =>
    intro x hr h
    obtain ⟨x', hx, h⟩ := bind_ok.mp h
    exact ih (reachable_act hr hx) h

def shipAfter (acts : List Act) (sequence : Nat) :
    Except String (System × Journal × List SealedSegment) := do
  let y ← acts.foldlM act ⟨[], none, 0, [], []⟩
  let j ← opened y
  let (_, _, tail) ← capture blake3 (engine j) sequence 0
  let tail ← tail
  .ok (y, j, tail)

/-- After these steps two records are committed, and a ship of the retained segments takes `D`. -/
def Ships (acts : List Act) (segments : List Segment) (D : List SealedSegment) : Prop :=
  match shipAfter acts 2 with
  | .ok (y, j, D') => y.root = 0 ∧ y.committed = [record 1, record 2] ∧
    j.segments = segments ∧ D' = D
  | .error _ => False

instance (acts : List Act) (segments : List Segment) (D : List SealedSegment) :
    Decidable (Ships acts segments D) := by
  unfold Ships
  split <;> infer_instance

theorem Ships.captured {segments : List Segment} (h : Ships acts segments D) :
    ∃ y s ops s', (shipping blake3 CommitLog.smallLimits).Reachable y ∧
      CommitLog.config s.config = .ok CommitLog.smallLimits ∧
      y.system.journal = some s.journal ∧ y.system.root = 0 ∧ s.checkpointSequence = 0 ∧
      y.system.committed = [record 1, record 2] ∧ s.journal.segments = segments ∧
      capture blake3 s 2 0 = .ok (ops, s', .ok D) := by
  unfold Ships at h
  split at h
  · rename_i y j D' hs
    obtain ⟨hroot, hcommitted, rfl, rfl⟩ := h
    obtain ⟨y', hy, hs⟩ := bind_ok.mp hs
    obtain ⟨j', hj, hs⟩ := bind_ok.mp hs
    obtain ⟨⟨ops, s', tail⟩, hcapture, hs⟩ := bind_ok.mp hs
    obtain ⟨D', htail, hs⟩ := bind_ok.mp hs
    cases hs
    exact ⟨⟨y, false⟩, engine j, ops, s', reachable_acts hy, CommitLog.config_small,
      opened_ok hj, hroot, rfl, hcommitted, rfl, htail ▸ hcapture⟩
  · exact h.elim

theorem collisionFree_single (h : objects.map f = [d]) : CollisionFree H objects := by
  obtain ⟨o, rfl, -⟩ := List.map_eq_singleton_iff.mp h
  intro a ha b hb _
  rw [List.mem_singleton.mp ha, List.mem_singleton.mp hb]

theorem ships_appends : Ships [.opens, .append [record 1], .append [record 2]]
    [⟨1, 618, 1, 2⟩] [⟨1, 1, 2, 682⟩] := by
  decide +kernel

/-- Two records in one segment are restored. -/
theorem shipped_record_restores : ∃ y s ops s' D objects,
    (shipping blake3 CommitLog.smallLimits).Reachable y ∧ y.system.journal = some s.journal ∧
    capture blake3 s 2 0 = .ok (ops, s', .ok D) ∧
    upload blake3 readRecord CommitLog.smallLimits (view (run y.system.disk ops)) D = .ok objects ∧
    Restores blake3 readRecord CommitLog.smallLimits 0 2 [record 1, record 2] objects := by
  obtain ⟨y, s, ops, s', hr, hc, hj, hroot, hcheckpoint, hcommitted, hsegments, hcap⟩ :=
    ships_appends.captured
  obtain ⟨objects, hupload, hmap, -, hrestores⟩ := shipped_tail_restores_iff hc hr hj
    (hroot.trans hcheckpoint.symm) hcap (hcommitted ▸ framed_records)
  rw [hroot, hcommitted, hsegments] at hrestores
  refine ⟨y, s, ops, s', _, objects, hr, hj, hcap, hupload,
    hrestores (collisionFree_single hmap) ?_⟩
  simp [Unbroken]

/-- The first record is shipped; the append of the second is cut short after it made its segment,
and what that left is shipped before the append is done again. -/
def brokenShips : List Act :=
  [.opens, .append [record 1], .ship, .cut [record 2] 4, .opens, .ship, .append [record 2]]

theorem ships_brokenShips : Ships brokenShips
    [⟨1, 405, 1, 1⟩, ⟨2, 128, 2, 1⟩, ⟨3, 341, 2, 2⟩] [⟨1, 1, 1, 405⟩, ⟨3, 2, 2, 405⟩] := by
  decide +kernel

/-- The second record is captured in the third segment, without the second segment: the ship does
not restore. -/
theorem shipped_record_lost : ∃ y s ops s' objects,
    (shipping blake3 CommitLog.smallLimits).Reachable y ∧ y.system.journal = some s.journal ∧
    y.system.committed = [record 1, record 2] ∧
    capture blake3 s 2 0 = .ok (ops, s', .ok [⟨1, 1, 1, 405⟩, ⟨3, 2, 2, 405⟩]) ∧
    upload blake3 readRecord CommitLog.smallLimits (view (run y.system.disk ops))
      [⟨1, 1, 1, 405⟩, ⟨3, 2, 2, 405⟩] = .ok objects ∧
    ¬Restores blake3 readRecord CommitLog.smallLimits 0 2 [record 1, record 2] objects := by
  obtain ⟨y, s, ops, s', hr, hc, hj, hroot, hcheckpoint, hcommitted, hsegments, hcap⟩ :=
    ships_brokenShips.captured
  obtain ⟨L, hdisk, hm⟩ := matches_of_reachable (segmentBytes_le hc).1 (journal_reachable hr) hj
  rw [hroot, hcommitted, ← hcheckpoint] at hm
  obtain ⟨objects, hupload, -, hbroken, -⟩ := capture_restores_iff hc hm hcap framed_records
  rw [← hdisk] at hupload
  rw [hcheckpoint, hsegments] at hbroken
  refine ⟨y, s, ops, s', objects, hr, hj, hcommitted, hcap, hupload, fun h => ?_⟩
  have hlost := hbroken h ⟨2, 128, 2, 1⟩ (by simp) (by decide)
  simp [Taken] at hlost

end Varve.Tier
