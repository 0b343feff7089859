import Varve.Journal.Format

/-!
# Inspecting what the journal writes

`inspect_reader` over the bytes of a segment: it visits the groups that were written, in order, and
stops at the seal, at the end of the file, or at the first incomplete frame or seal where a tail is
allowed.
-/

namespace Varve.Journal

open Result (ensure_bind)
open Bytes (le le64 word)

section
variable {H : Digest} {config : JournalConfig} {id : Nat}

@[simp] theorem length_headerFields : (headerFields id first).length = 32 := by
  simp [headerFields, segmentMagic]

@[simp] theorem length_segmentHeader : (segmentHeader H id first).length = headerBytes := by
  simp [segmentHeader, H.length_hash, headerBytes]

@[simp] theorem length_groupFields : (groupFields size first count).length = 32 := by
  simp [groupFields, groupMagic]

@[simp] theorem length_groupHeader : (groupHeader H size first count).length = headerBytes := by
  simp [groupHeader, H.length_hash, headerBytes]

@[simp] theorem length_trailerFields : (trailerFields first last size).length = 32 := by
  simp [trailerFields, commitMagic]

@[simp] theorem length_sealFields : (sealFields id next bytes).length = 32 := by
  simp [sealFields, sealMagic]

@[simp] theorem length_sealOf : (sealOf H hashed id next bytes).length = reservedSealBytes := by
  simp [sealOf, H.length_hash, reservedSealBytes]

theorem length_encodeRecords :
    (encodeRecords records).length = (records.map fun record => 8 + record.length).sum := by
  simp [encodeRecords, List.length_flatMap]

theorem length_encode : (encode H records size first last).length = frameSize records := by
  simp [encode, H.length_hash, length_encodeRecords, frameSize, headerBytes, trailerBytes]
  omega

theorem word_fields (hm : magic.length = 8) (ha : a < 2 ^ 64) (hb : b < 2 ^ 64)
    (hc : c < 2 ^ 64) :
    word (magic ++ le64 a ++ le64 b ++ le64 c ++ rest) 8 = a ∧
    word (magic ++ le64 a ++ le64 b ++ le64 c ++ rest) 16 = b ∧
    word (magic ++ le64 a ++ le64 b ++ le64 c ++ rest) 24 = c := by
  simp only [List.append_assoc]
  refine ⟨?_, ?_, ?_⟩
  · rw [Bytes.word_append_of_length (k := 0) hm, Bytes.word_le64 ha]
  · rw [Bytes.word_append_of_length (k := 8) hm,
      Bytes.word_append_of_length (k := 0) Bytes.length_le64, Bytes.word_le64 hb]
  · rw [Bytes.word_append_of_length (k := 16) hm,
      Bytes.word_append_of_length (k := 8) Bytes.length_le64,
      Bytes.word_append_of_length (k := 0) Bytes.length_le64, Bytes.word_le64 hc]

theorem take_fields (hm : magic.length = 8) :
    (magic ++ le64 a ++ le64 b ++ le64 c ++ rest).take 8 = magic := by
  simp only [List.append_assoc]
  exact List.take_left' hm

theorem word_headerFields (h : first < 2 ^ 64) : word (headerFields id first) 24 = first := by
  have hlen : (segmentMagic ++ le 4 version ++ le 4 0 ++ le64 id).length = 24 := by
    simp [segmentMagic]
  have := Bytes.word_append_of_length (b := le64 first) (k := 0) hlen
  rw [headerFields, this]
  rw [← List.append_nil (le64 first), Bytes.word_le64 h]

theorem word_headerFields_id (h : id < 2 ^ 64) :
    word (headerFields id first ++ rest) 16 = id := by
  have hlen : (segmentMagic ++ le 4 version ++ le 4 0).length = 16 := by simp [segmentMagic]
  have := Bytes.word_append_of_length (b := le64 id ++ (le64 first ++ rest)) (k := 0) hlen
  rw [Bytes.word_le64 h] at this
  simpa [headerFields] using this

-- Frames

/-- What `append_plan` checks of a group's records. -/
structure GroupOk (config : JournalConfig) (records : List Bytes) : Prop where
  nonempty : records ≠ []
  count : records.length ≤ config.maxRecordsPerGroup
  record : ∀ r ∈ records, r.length ≤ config.maxRecordBytes
  size : frameSize records ≤ config.maxFrameBytes

def frame (H : Digest) (first : Nat) (records : List Bytes) : Bytes :=
  encode H records (frameSize records) first (first + records.length - 1)

@[simp] theorem length_frame : (frame H first records).length = frameSize records := length_encode

theorem frameSize_ge : headerBytes + trailerBytes + records.length * 8 ≤ frameSize records := by
  unfold frameSize
  induction records with
  | nil => simp
  | cons r rs ih =>
    simp only [List.map_cons, List.sum_cons, List.length_cons] at ih ⊢
    omega

theorem checkRecords_encode (hr : ∀ r ∈ records, r.length ≤ config.maxRecordBytes)
    (hb : config.maxRecordBytes < 2 ^ 64) (hp : before.length = cursor)
    (ht : trailer = cursor + (encodeRecords records).length) :
    checkRecords config (before ++ (encodeRecords records ++ rest)) trailer records.length cursor =
      .ok () := by
  induction records generalizing before cursor with
  | nil =>
    simp [checkRecords, ht, encodeRecords]
  | cons r rs ih =>
    have hr0 := hr r List.mem_cons_self
    have hcons : encodeRecords (r :: rs) = le64 r.length ++ (r ++ encodeRecords rs) := by
      simp [encodeRecords]
    have hlen : (encodeRecords (r :: rs)).length = 8 + (r.length + (encodeRecords rs).length) := by
      simp [hcons]
    have hword : word (before ++ (encodeRecords (r :: rs) ++ rest)) cursor = r.length := by
      have := Bytes.word_append_of_length (b := encodeRecords (r :: rs) ++ rest) (k := 0) hp
      rw [Nat.add_zero] at this
      rw [this, hcons, List.append_assoc, Bytes.word_le64 (by omega)]
    simp only [List.length_cons, checkRecords, hword, ensure_bind]
    refine ⟨by omega, hr0, by omega, ?_⟩
    have hshape : before ++ (encodeRecords (r :: rs) ++ rest) =
        (before ++ (le64 r.length ++ r)) ++ (encodeRecords rs ++ rest) := by
      simp [hcons]
    rw [hshape]
    refine ih (fun x hx => hr x (List.mem_cons_of_mem _ hx)) ?_ ?_
    · simp [hp]
      omega
    · omega

theorem word_groupHeader (hs : size < 2 ^ 64) (hf : first < 2 ^ 64) (hc : count < 2 ^ 64) :
    word (groupHeader H size first count) 8 = size ∧
    word (groupHeader H size first count) 16 = first ∧
    word (groupHeader H size first count) 24 = count :=
  word_fields rfl hs hf hc

theorem checkGroupHeader_groupHeader (hg : GroupOk config records) (hc : config.Valid)
    (hn : first + records.length < 2 ^ 64)
    (hp : pos + frameSize records + reservedSealBytes ≤ config.segmentBytes) :
    checkGroupHeader H config (groupHeader H (frameSize records) first records.length) pos first =
      .ok (frameSize records, records.length) := by
  have hframe := hc.frame
  have hsize := hg.size
  obtain ⟨h8, h16, h24⟩ : _ ∧ _ ∧ _ := word_groupHeader (H := H)
    (show frameSize records < 2 ^ 64 by omega)
    (show first < 2 ^ 64 by omega) (show records.length < 2 ^ 64 by omega)
  have htake : (groupHeader H (frameSize records) first records.length).take 32 =
      groupFields (frameSize records) first records.length := List.take_left' length_groupFields
  have hdrop : (groupHeader H (frameSize records) first records.length).drop 32 =
      H.hash (groupFields (frameSize records) first records.length) :=
    List.drop_left' length_groupFields
  have hpos := List.length_pos_iff.mpr hg.nonempty
  have hmagic : (groupHeader H (frameSize records) first records.length).take 8 = groupMagic :=
    take_fields rfl
  simp only [checkGroupHeader, htake, hdrop, h8, h16, h24, hmagic, ensure_bind, true_and, and_true]
  exact ⟨⟨hpos, hg.count⟩, ⟨frameSize_ge, hsize⟩, hn, hp⟩

theorem frame_eq : frame H first records =
    (groupHeader H (frameSize records) first records.length ++ encodeRecords records) ++
      (trailerFields first (first + records.length - 1) (frameSize records) ++
        H.hash (groupHeader H (frameSize records) first records.length ++ encodeRecords records ++
          trailerFields first (first + records.length - 1) (frameSize records))) := by
  simp [frame, encode]

theorem length_frame_body (H : Digest) (size first count : Nat) (records : List Bytes) :
    (groupHeader H size first count ++ encodeRecords records).length =
      frameSize records - trailerBytes := by
  simp [length_encodeRecords, frameSize, headerBytes, trailerBytes]
  omega

theorem checkFrame_frame (hg : GroupOk config records) (hc : config.Valid)
    (hn : first + records.length < 2 ^ 64) :
    checkFrame H config (frame H first records) (frameSize records) records.length first =
      .ok () := by
  have hframe := hc.frame
  have hrecord := hc.record
  have hsize := hg.size
  have hge : _ ≤ frameSize records := frameSize_ge
  have hsum : frameSize records = 128 + (encodeRecords records).length := by
    simp [length_encodeRecords, frameSize, headerBytes, trailerBytes]
  have hlen := length_frame_body H (frameSize records) first records.length records
  have hwords (t : Bytes) :
      word (trailerFields first (first + records.length - 1) (frameSize records) ++ t) 8 = first ∧
      word (trailerFields first (first + records.length - 1) (frameSize records) ++ t) 16 =
        first + records.length - 1 ∧
      word (trailerFields first (first + records.length - 1) (frameSize records) ++ t) 24 =
        frameSize records :=
    word_fields rfl (by omega) (by omega) (by omega)
  have hword (k : Nat) : word (frame H first records) (frameSize records - trailerBytes + k) =
      word (trailerFields first (first + records.length - 1) (frameSize records) ++
        H.hash (groupHeader H (frameSize records) first records.length ++ encodeRecords records ++
          trailerFields first (first + records.length - 1) (frameSize records))) k := by
    rw [frame_eq]
    exact Bytes.word_append_of_length hlen
  have hsplit : (groupHeader H (frameSize records) first records.length ++ encodeRecords records ++
      trailerFields first (first + records.length - 1) (frameSize records)).length =
        frameSize records - 32 := by
    rw [List.length_append, hlen, length_trailerFields]
    simp only [trailerBytes]
    omega
  simp only [checkFrame, ensure_bind, hword]
  refine ⟨⟨?_, hwords _⟩, ?_, ?_⟩
  · rw [frame_eq, List.drop_left' hlen]
    exact take_fields rfl
  · rw [frame_eq, ← List.append_assoc, List.take_left' hsplit, List.drop_left' hsplit]
  · rw [frame_eq, List.append_assoc]
    exact checkRecords_encode hg.record (by omega) length_groupHeader (by
      simp only [hsum, trailerBytes, headerBytes]
      omega)

theorem readExact_append (h : a.length = n) : readExact (a ++ b) n = .ok (a, b) := by
  subst h
  simp [readExact]

theorem readExact_self (h : a.length = n) : readExact a n = .ok (a, []) := by
  subst h
  simp [readExact]

theorem take_groupHeader : (groupHeader H size first count).take 8 = groupMagic := take_fields rfl

theorem frame_split (H : Digest) (first : Nat) (records : List Bytes) : ∃ tail,
    frame H first records = groupHeader H (frameSize records) first records.length ++ tail ∧
      tail.length = frameSize records - headerBytes := by
  refine ⟨_, by rw [frame_eq, List.append_assoc], ?_⟩
  simp [length_encodeRecords, H.length_hash, frameSize, headerBytes, trailerBytes]
  omega

theorem frame_records : ((frame H first records).take (frameSize records - trailerBytes)).drop
    headerBytes = encodeRecords records := by
  rw [frame_eq, List.take_left' (length_frame_body ..), List.drop_left' length_groupHeader]

section
variable {segment : Segment} {allowTail : Bool} {rest hash : Bytes} {pos next fuel : Nat}

theorem inspectLoop_frame (hc : config.Valid) (hg : GroupOk config records)
    (hn : next + records.length < 2 ^ 64)
    (hp : pos + frameSize records + reservedSealBytes ≤ config.segmentBytes)
    (hl : pos + frameSize records ≤ segment.len) :
    inspectLoop H config segment allowTail (fuel + 1) (frame H next records ++ rest) pos next hash =
      inspectLoop H config segment allowTail fuel rest (pos + frameSize records)
          (next + records.length) (hash ++ frame H next records) >>= fun r =>
        .ok (⟨next, records.length, encodeRecords records⟩ :: r.1, r.2) := by
  have hge : headerBytes + trailerBytes + records.length * 8 ≤ frameSize records := frameSize_ge
  simp only [headerBytes, trailerBytes] at hge
  obtain ⟨tail, hframe, htail⟩ := frame_split H next records
  have hcheck := checkFrame_frame (H := H) hg hc hn
  have hrecords : ((frame H next records).take _).drop _ = _ := frame_records
  have hmagic : groupMagic ≠ sealMagic := by decide
  rw [hframe] at hcheck hrecords ⊢
  rw [List.append_assoc, inspectLoop, if_pos (by omega), if_neg (by simp only [headerBytes]; omega),
    readExact_append length_groupHeader, Result.ok_bind]
  dsimp only
  rw [take_groupHeader, if_neg hmagic, checkGroupHeader_groupHeader hg hc hn hp, Result.ok_bind]
  dsimp only
  rw [if_neg (by omega), readExact_append htail, Result.ok_bind]
  dsimp only
  rw [hcheck, Result.ok_bind, hrecords]

theorem inspectLoop_end (hl : pos = segment.len) :
    inspectLoop H config segment allowTail (fuel + 1) rest pos next hash =
      .ok ([], ⟨next, pos, false, false, hash⟩) := by
  rw [inspectLoop, if_neg (by omega)]

theorem inspectLoop_seal (hid : segment.id < 2 ^ 64) (hn : next < 2 ^ 64)
    (hlen : segment.len < 2 ^ 64) (hl : pos + reservedSealBytes = segment.len) :
    inspectLoop H config segment allowTail (fuel + 1)
        (sealOf H hash segment.id next (pos + reservedSealBytes)) pos next hash =
      .ok ([], ⟨next, segment.len, true, false,
        hash ++ sealFields segment.id next (pos + reservedSealBytes)⟩) := by
  obtain ⟨h8, h16, h24⟩ : word (sealOf H hash segment.id next (pos + reservedSealBytes)) 8 = _ ∧
      word (sealOf H hash segment.id next (pos + reservedSealBytes)) 16 = _ ∧
      word (sealOf H hash segment.id next (pos + reservedSealBytes)) 24 = _ :=
    word_fields rfl hid hn (hl ▸ hlen)
  have htake : (sealOf H hash segment.id next (pos + reservedSealBytes)).take 32 =
      sealFields segment.id next (pos + reservedSealBytes) := List.take_left' length_sealFields
  have hdrop : (sealOf H hash segment.id next (pos + reservedSealBytes)).drop 32 =
      H.hash (hash ++ sealFields segment.id next (pos + reservedSealBytes)) :=
    List.drop_left' length_sealFields
  have hmagic : (sealOf H hash segment.id next (pos + reservedSealBytes)).take 8 = sealMagic :=
    take_fields rfl
  have hlt : pos < segment.len := by
    rw [← hl]
    exact Nat.lt_add_of_pos_right (by decide)
  have hfull : ¬segment.len - pos < headerBytes := by
    rw [← hl, Nat.add_sub_cancel_left]
    decide
  have hread : readExact (sealOf H hash segment.id next (pos + reservedSealBytes)) headerBytes =
      .ok (_, []) := readExact_self length_sealOf
  rw [inspectLoop, if_pos hlt, if_neg hfull, hread, Result.ok_bind]
  dsimp only
  rw [if_pos hmagic, htake, hdrop, h8, h16, h24, Result.ensure_pos ⟨rfl, rfl, rfl, hl⟩,
    Result.ensure_pos rfl]
  rfl

/-- What is left of a frame or a seal whose write was cut short. -/
inductive Torn (H : Digest) (config : JournalConfig) (pos next : Nat) (rest : Bytes) : Prop where
  | frame (records : List Bytes) (hg : GroupOk config records)
      (hn : next + records.length < 2 ^ 64)
      (hp : pos + frameSize records + reservedSealBytes ≤ config.segmentBytes)
      (hr : rest <+: Journal.frame H next records) (hl : rest.length < frameSize records)
  | short (hl : rest.length < headerBytes)

theorem inspectLoop_torn (hc : config.Valid) (ht : Torn H config pos next rest)
    (hl : pos + rest.length = segment.len) :
    inspectLoop H config segment true (fuel + 1) rest pos next hash =
      .ok ([], ⟨next, pos, false, false, hash⟩) := by
  have hremaining : segment.len - pos = rest.length := by omega
  by_cases hshort : rest.length < headerBytes
  · rw [inspectLoop, hremaining, if_pos hshort]
    split <;> rfl
  · cases ht with
    | short hs => exact absurd hs hshort
    | frame records hg hn hp hr hlt =>
      obtain ⟨tail, hframe, -⟩ := frame_split H next records
      obtain ⟨more, hmore⟩ : groupHeader H (frameSize records) next records.length <+: rest := by
        refine List.prefix_of_prefix_length_le (hframe ▸ List.prefix_append _ _) hr ?_
        rw [length_groupHeader]
        omega
      have hpos : pos < segment.len := by
        simp only [headerBytes] at hshort
        omega
      have hmagic : groupMagic ≠ sealMagic := by decide
      rw [inspectLoop, hremaining, if_pos hpos, if_neg hshort, ← hmore,
        readExact_append length_groupHeader, Result.ok_bind]
      dsimp only
      rw [take_groupHeader, if_neg hmagic, checkGroupHeader_groupHeader hg hc hn hp,
        Result.ok_bind]
      dsimp only
      rw [hmore, if_pos hlt]
      rfl

end

-- Segments

def frames (H : Digest) : Nat → List (List Bytes) → Bytes
  | _, [] => []
  | first, group :: groups => frame H first group ++ frames H (first + group.length) groups

def replay : Nat → List (List Bytes) → List ReplayGroup
  | _, [] => []
  | first, group :: groups =>
    ⟨first, group.length, encodeRecords group⟩ :: replay (first + group.length) groups

def framesSize (groups : List (List Bytes)) : Nat := (groups.map frameSize).sum

theorem length_frames : (frames H first groups).length = framesSize groups := by
  induction groups generalizing first with
  | nil => rfl
  | cons g gs ih => simp [frames, ih, framesSize]

theorem length_le_framesSize : groups.length ≤ framesSize groups := by
  induction groups with
  | nil => exact Nat.zero_le _
  | cons g gs ih =>
    have : headerBytes + trailerBytes + g.length * 8 ≤ frameSize g := frameSize_ge
    simp only [framesSize, List.map_cons, List.sum_cons, List.length_cons, headerBytes] at ih this ⊢
    omega

theorem frames_append : frames H first (groups ++ more) =
    frames H first groups ++ frames H (first + groups.flatten.length) more := by
  induction groups generalizing first with
  | nil => simp [frames]
  | cons g gs ih => simp [frames, ih, Nat.add_assoc]

theorem inspectLoop_frames {segment : Segment} {hash : Bytes} (hc : config.Valid)
    (hg : ∀ g ∈ groups, GroupOk config g)
    (hn : next + groups.flatten.length < 2 ^ 64)
    (hp : pos + framesSize groups + reservedSealBytes ≤ config.segmentBytes)
    (hl : pos + framesSize groups ≤ segment.len) :
    inspectLoop H config segment allowTail (groups.length + fuel) (frames H next groups ++ rest)
        pos next hash =
      inspectLoop H config segment allowTail fuel rest (pos + framesSize groups)
          (next + groups.flatten.length) (hash ++ frames H next groups) >>= fun r =>
        .ok (replay next groups ++ r.1, r.2) := by
  induction groups generalizing next pos hash with
  | nil =>
    simp only [frames, replay, framesSize, List.length_nil, List.flatten_nil, List.map_nil,
      List.sum_nil, Nat.zero_add, Nat.add_zero, List.nil_append, List.append_nil]
    exact (bind_pure _).symm
  | cons g gs ih =>
    have hsize : framesSize (g :: gs) = frameSize g + framesSize gs := rfl
    have hcount : (g :: gs).flatten.length = g.length + gs.flatten.length := by simp
    rw [hsize] at hp hl
    rw [hcount] at hn
    rw [List.length_cons, Nat.add_right_comm, frames, List.append_assoc,
      inspectLoop_frame hc (hg g List.mem_cons_self) (by omega) (by omega) (by omega),
      ih (fun x hx => hg x (List.mem_cons_of_mem _ hx)) (by omega) (by omega) (by omega),
      hsize, hcount, bind_assoc, List.append_assoc, Nat.add_assoc, Nat.add_assoc]
    rfl

structure Piece where
  id : Nat
  first : Nat
  groups : List (List Bytes)

namespace Piece

def records (p : Piece) : List Bytes := p.groups.flatten

def next (p : Piece) : Nat := p.first + p.records.length

def body (H : Digest) (p : Piece) : Bytes :=
  segmentHeader H p.id p.first ++ frames H p.first p.groups

def bodySize (p : Piece) : Nat := headerBytes + framesSize p.groups

def sealBytes (H : Digest) (p : Piece) : Bytes :=
  sealOf H (p.body H) p.id p.next (p.bodySize + reservedSealBytes)

def sealedBytes (H : Digest) (p : Piece) : Bytes := p.body H ++ p.sealBytes H

/-- What the journal keeps true of every segment it writes. -/
structure Ok (config : JournalConfig) (p : Piece) : Prop where
  id_pos : 0 < p.id
  id_lt : p.id + 1 < 2 ^ 64
  first_pos : 0 < p.first
  next_lt : p.next < 2 ^ 64
  groups : ∀ g ∈ p.groups, GroupOk config g
  fits : p.bodySize + reservedSealBytes ≤ config.segmentBytes

structure Fits (config : JournalConfig) (p : Piece) : Prop where
  groups : ∀ g ∈ p.groups, GroupOk config g
  next_lt : p.next < 2 ^ 64
  fits : p.bodySize + reservedSealBytes ≤ config.segmentBytes

theorem Ok.fitting {p : Piece} (h : p.Ok config) : p.Fits config := ⟨h.groups, h.next_lt, h.fits⟩

@[simp] theorem length_body {p : Piece} : (p.body H).length = p.bodySize := by
  simp [body, bodySize, length_frames]

@[simp] theorem length_sealBytes {p : Piece} : (p.sealBytes H).length = reservedSealBytes :=
  length_sealOf

end Piece

section
variable {p : Piece}

theorem inspect_body (hc : config.Valid) (hp : p.Fits config)
    (he : ∀ fuel, inspectLoop H config ⟨p.id, (p.body H ++ rest).length, a, b⟩ allowTail (fuel + 1)
      rest p.bodySize p.next (p.body H) = .ok ([], scanEnd)) :
    inspect H config ⟨p.id, (p.body H ++ rest).length, a, b⟩ allowTail (p.body H ++ rest) p.first =
      .ok (replay p.first p.groups, scanEnd) := by
  have hcount : p.groups.length ≤ framesSize p.groups := length_le_framesSize
  have hsize : p.bodySize = headerBytes + framesSize p.groups := rfl
  have hfits := hp.fits
  have hnext : p.first + p.groups.flatten.length < 2 ^ 64 := hp.next_lt
  generalize hlen : (p.body H ++ rest).length = len at he ⊢
  have hlen' : len = p.bodySize + rest.length := by simp [← hlen]
  have hmin : min len headerBytes = headerBytes := by omega
  have hfuel : len + 1 = p.groups.length + (len - p.groups.length + 1) := by omega
  have he := he (len - p.groups.length)
  rw [inspect, Result.ensure_pos hlen, Result.ok_bind, inspectReader, hmin, Piece.body,
    List.append_assoc, readExact_append length_segmentHeader, Result.ok_bind]
  dsimp only
  rw [Result.ensure_pos (List.take_of_length_le (by simp)).symm, Result.ok_bind,
    if_neg (lt_irrefl _), hfuel,
    inspectLoop_frames hc hp.groups hnext (by omega) (by dsimp only; omega)]
  rw [Piece.body] at he
  simp only [Piece.bodySize, Piece.next, Piece.records] at he
  rw [he, Result.ok_bind, List.append_nil]

theorem inspect_sealed (hc : config.Valid) (hp : p.Fits config) (hid : p.id < 2 ^ 64) : ∃ hash,
    inspect H config ⟨p.id, (p.sealedBytes H).length, a, b⟩ allowTail (p.sealedBytes H) p.first =
      .ok (replay p.first p.groups, ⟨p.next, (p.sealedBytes H).length, true, false, hash⟩) := by
  have hseg := hc.segment
  have hfits := hp.fits
  have hlen : (p.sealedBytes H).length = p.bodySize + reservedSealBytes := by
    simp [Piece.sealedBytes]
  refine ⟨p.body H ++ sealFields p.id p.next (p.bodySize + reservedSealBytes),
    inspect_body hc hp fun fuel => ?_⟩
  exact inspectLoop_seal hid hp.next_lt
    (by rw [← Piece.sealedBytes]; dsimp only; omega) hlen.symm

theorem inspect_torn (hc : config.Valid) (hp : p.Ok config)
    (ht : Torn H config p.bodySize p.next rest) :
    inspect H config ⟨p.id, (p.body H ++ rest).length, a, b⟩ true (p.body H ++ rest) p.first =
      .ok (replay p.first p.groups, ⟨p.next, p.bodySize, false, false, p.body H⟩) :=
  inspect_body hc hp.fitting fun _ => inspectLoop_torn hc ht (by simp)

theorem inspect_clean (hc : config.Valid) (hp : p.Ok config) :
    inspect H config ⟨p.id, (p.body H).length, a, b⟩ allowTail (p.body H) p.first =
      .ok (replay p.first p.groups, ⟨p.next, p.bodySize, false, false, p.body H⟩) := by
  have hi : inspect H config ⟨p.id, (p.body H ++ []).length, a, b⟩ allowTail (p.body H ++ [])
      p.first = .ok (_, _) :=
    inspect_body hc hp.fitting fun _ => inspectLoop_end (by simp)
  simpa using hi

theorem inspect_short (hx : x <+: segmentHeader H id first) (hl : x.length < headerBytes) :
    inspect H config ⟨id, x.length, a, b⟩ true x first =
      .ok ([], ⟨first, headerBytes, false, true, segmentHeader H id first⟩) := by
  have hmin : min x.length headerBytes = x.length := by omega
  rw [inspect, Result.ensure_pos rfl, Result.ok_bind, inspectReader, hmin, readExact_self rfl,
    Result.ok_bind]
  dsimp only
  rw [Result.ensure_pos (List.prefix_iff_eq_take.mp hx), Result.ok_bind, if_pos hl]
  rfl

end

def numbered : Nat → List Bytes → List (Nat × Bytes)
  | _, [] => []
  | first, record :: records => (first, record) :: numbered (first + 1) records

theorem numbered_append : numbered first (records ++ more) =
    numbered first records ++ numbered (first + records.length) more := by
  induction records generalizing first with
  | nil => rfl
  | cons r rs ih => simp [numbered, ih, Nat.add_assoc, Nat.add_comm 1]

theorem splitRecords_encode (hr : ∀ r ∈ records, r.length < 2 ^ 64) :
    splitRecords records.length (encodeRecords records) = records := by
  induction records with
  | nil => rfl
  | cons r rs ih =>
    have hcons : encodeRecords (r :: rs) = le64 r.length ++ (r ++ encodeRecords rs) := by
      simp [encodeRecords]
    have hword : word (encodeRecords (r :: rs)) 0 = r.length := by
      rw [hcons, Bytes.word_le64 (hr r List.mem_cons_self)]
    rw [List.length_cons, splitRecords, hword, hcons, ← List.drop_drop,
      List.drop_left' Bytes.length_le64, List.take_left, List.drop_left,
      ih fun x hx => hr x (List.mem_cons_of_mem _ hx)]

theorem zip_range' : (List.range' first records.length).zip records = numbered first records := by
  induction records generalizing first with
  | nil => rfl
  | cons r rs ih => simp [List.range'_succ, numbered, ih]

theorem items_group (hr : ∀ r ∈ records, r.length < 2 ^ 64) :
    ReplayGroup.items ⟨first, records.length, encodeRecords records⟩ = numbered first records := by
  simp only [ReplayGroup.items, splitRecords_encode hr, zip_range']

theorem items_replay (hg : ∀ g ∈ groups, ∀ r ∈ g, r.length < 2 ^ 64) :
    (replay first groups).flatMap ReplayGroup.items = numbered first groups.flatten := by
  induction groups generalizing first with
  | nil => rfl
  | cons g gs ih =>
    rw [replay, List.flatMap_cons, List.flatten_cons, numbered_append,
      items_group (hg g List.mem_cons_self), ih fun x hx => hg x (List.mem_cons_of_mem _ hx)]

end

end Varve.Journal
