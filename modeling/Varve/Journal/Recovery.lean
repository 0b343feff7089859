import Varve.Journal.Codec
import Varve.Journal.Operations

/-!
# Reopening a journal

What `open_with_checkpoint` makes of a directory: a list of sealed segments and, last, possibly a
file that a crash cut short.
-/

namespace Varve.Journal

open Result (ensure_bind bind_ok)

-- Links

/-- What `open_with_checkpoint` asks of a segment after one with id
`previousId` that ended before `previousNext`. -/
structure Link (checkpoint previousId previousNext id first : Nat) : Prop where
  order : previousNext ≤ first
  gap : first = previousNext ∨ first ≤ checkpoint + 1
  ids : id = previousId + 1 ∨
    0 < checkpoint ∧ previousNext ≤ checkpoint + 1 ∧ first ≤ checkpoint + 1

def Chain (checkpoint : Nat) : Nat → Nat → List Piece → Prop
  | _, _, [] => True
  | previousId, previousNext, p :: ps =>
    Link checkpoint previousId previousNext p.id p.first ∧ Chain checkpoint p.id p.next ps

def endId (previousId : Nat) (ps : List Piece) : Nat := (ps.getLast?.map Piece.id).getD previousId

def endNext (previousNext : Nat) (ps : List Piece) : Nat :=
  (ps.getLast?.map Piece.next).getD previousNext

@[simp] theorem endId_cons : endId i (p :: ps) = endId p.id ps := by
  cases ps <;> simp [endId, List.getLast?_cons]

@[simp] theorem endNext_cons : endNext n (p :: ps) = endNext p.next ps := by
  cases ps <;> simp [endNext, List.getLast?_cons]

@[simp] theorem endId_nil : endId i [] = i := rfl
@[simp] theorem endNext_nil : endNext n [] = n := rfl

@[simp] theorem endId_append : endId i (ps ++ qs) = endId (endId i ps) qs := by
  induction ps generalizing i with
  | nil => rfl
  | cons p ps ih => simp [ih]

@[simp] theorem endNext_append : endNext n (ps ++ qs) = endNext (endNext n ps) qs := by
  induction ps generalizing n with
  | nil => rfl
  | cons p ps ih => simp [ih]

theorem Chain.append_iff : Chain c i n (ps ++ qs) ↔
    Chain c i n ps ∧ Chain c (endId i ps) (endNext n ps) qs := by
  induction ps generalizing i n with
  | nil => simp [Chain]
  | cons p ps ih => simp [Chain, ih, and_assoc]

theorem Link.mono (h : Link c i n k first) (hc : c ≤ c') : Link c' i n k first where
  order := h.order
  gap := h.gap.imp_right fun h => by omega
  ids := h.ids.imp_right fun h => by omega

theorem Chain.mono (h : Chain c i n ps) (hc : c ≤ c') : Chain c' i n ps := by
  induction ps generalizing i n with
  | nil => trivial
  | cons p ps ih => exact ⟨h.1.mono hc, ih h.2⟩

theorem Piece.first_le_next (p : Piece) : p.first ≤ p.next := Nat.le_add_right _ _

theorem Chain.le_endNext (h : Chain c i n ps) : n ≤ endNext n ps := by
  induction ps generalizing i n with
  | nil => exact Nat.le_refl _
  | cons p ps ih =>
    rw [endNext_cons]
    exact h.1.order.trans (p.first_le_next.trans (ih h.2))

theorem endNext_le {ps : List Piece} (hn : n ≤ m) (hp : ∀ p ∈ ps, p.next ≤ m) :
    endNext n ps ≤ m := by
  induction ps generalizing n with
  | nil => exact hn
  | cons p ps ih =>
    rw [endNext_cons]
    exact ih (hp p List.mem_cons_self) fun q hq => hp q (List.mem_cons_of_mem _ hq)

theorem Chain.next_le_endNext (h : Chain c i n ps) (hp : p ∈ ps) : p.next ≤ endNext n ps := by
  induction ps generalizing i n with
  | nil => cases hp
  | cons q ps ih =>
    rw [endNext_cons]
    rcases List.mem_cons.mp hp with rfl | hp
    · exact h.2.le_endNext
    · exact ih h.2 hp

-- The loop over segments

section
variable {H : Digest} {config : JournalConfig}

theorem locateFirst_header (hf : first < 2 ^ 64) :
    locateFirst H k floorNext contiguous (segmentHeader H k first ++ rest) = first := by
  have hlen : (segmentHeader H k first ++ rest).length = 64 + rest.length := by
    simp [headerBytes]
  have htake : (segmentHeader H k first ++ rest).take 32 = headerFields k first := by
    rw [segmentHeader, List.append_assoc, List.take_left' length_headerFields]
  rw [locateFirst, if_pos (by omega), htake, word_headerFields hf]

theorem recoverSegments_cons (rest : Listing) (hfirst : locateFirst H k (c + 1)
      (if isFirst && k != 1 then c + 1 else previousNext) content = first)
    (h0 : 0 < first) (hn : isFirst = true → previousNext = 1)
    (hi : inspect H config ⟨k, content.length, 0, 0⟩ rest.isEmpty content first = .ok (gs, e))
    (he : rest = [] ∨ e.sealed = true) :
    recoverSegments H config c (c + 1) isFirst previousId previousNext last ((k, content) :: rest) =
        .ok r ↔
      Link c previousId previousNext k first ∧
        ∃ r', recoverSegments H config c (c + 1) false k e.next (some e) rest = .ok r' ∧
          r = { r' with segments := ⟨k, content.length, first, e.next - 1⟩ :: r'.segments } := by
  have hlink : Link c previousId previousNext k first ↔
      (if isFirst = true then first ≤ c + 1
        else previousNext ≤ first ∧ (first = previousNext ∨ first ≤ c + 1)) ∧
      (k = previousId + 1 ∨ 0 < c ∧ previousNext ≤ c + 1 ∧ first ≤ c + 1) := by
    cases isFirst with
    | true =>
      have := hn rfl
      constructor
      · rintro ⟨-, hgap, hids⟩
        exact ⟨by simp only [if_true]; omega, hids⟩
      · rintro ⟨hgap, hids⟩
        exact ⟨by omega, .inr hgap, hids⟩
    | false =>
      constructor
      · rintro ⟨horder, hgap, hids⟩
        exact ⟨⟨horder, hgap⟩, hids⟩
      · rintro ⟨⟨horder, hgap⟩, hids⟩
        exact ⟨horder, hgap, hids⟩
  rw [recoverSegments]
  simp only [hfirst, hi, Result.ok_bind, ensure_bind, hlink]
  constructor
  · rintro ⟨-, hgap, hids, -, hr⟩
    obtain ⟨r', hr', hr⟩ := bind_ok.mp hr
    cases hr
    exact ⟨⟨hgap, hids⟩, r', hr', rfl⟩
  · rintro ⟨⟨hgap, hids⟩, r', hr', rfl⟩
    exact ⟨h0, hgap, hids, he, bind_ok.mpr ⟨r', hr', rfl⟩⟩

def sealedSegment (p : Piece) : Segment :=
  ⟨p.id, p.bodySize + reservedSealBytes, p.first, p.next - 1⟩

def sealedFile (H : Digest) (p : Piece) : Nat × Bytes := (p.id, p.sealedBytes H)

theorem length_sealedBytes (H : Digest) (p : Piece) :
    (p.sealedBytes H).length = p.bodySize + reservedSealBytes := by
  simp [Piece.sealedBytes]

theorem recoverSegments_sealed (hc : config.Valid) (hp : p.Ok config)
    (hn : isFirst = true → n = 1) : ∃ hash, ∀ r,
    recoverSegments H config c (c + 1) isFirst i n last (sealedFile H p :: rest) = .ok r ↔
      Link c i n p.id p.first ∧
        ∃ r', recoverSegments H config c (c + 1) false p.id p.next
            (some ⟨p.next, (p.sealedBytes H).length, true, false, hash⟩) rest = .ok r' ∧
          r = { r' with segments := sealedSegment p :: r'.segments } := by
  obtain ⟨hash, hi⟩ := inspect_sealed (H := H) (a := 0) (b := 0) hc hp.fitting
    (Nat.lt_of_succ_lt hp.id_lt)
  refine ⟨hash, fun r => ?_⟩
  have hfirst (m : Nat) : locateFirst H p.id (c + 1) m (p.sealedBytes H) = p.first := by
    have hlt := p.first_le_next.trans_lt hp.next_lt
    rw [Piece.sealedBytes, Piece.body, List.append_assoc]
    exact locateFirst_header hlt
  rw [sealedFile, recoverSegments_cons rest (hfirst _) hp.first_pos hn hi (.inr rfl), sealedSegment,
    length_sealedBytes]

theorem recoverSegments_chain (isFirst : Bool) (last : Option ScanEnd) (rest : Listing)
    (hc : config.Valid) (hp : ∀ p ∈ ps, p.Ok config) (hn : isFirst = true → n = 1)
      (h : Chain c i n ps) : ∃ last',
    (ps = [] ∧ last' = last ∨
      ∃ e : ScanEnd, last' = some e ∧ e.sealed = true ∧ e.next = endNext n ps) ∧
    ∀ r, recoverSegments H config c (c + 1) (isFirst && ps.isEmpty) (endId i ps) (endNext n ps)
        last' rest = .ok r →
      recoverSegments H config c (c + 1) isFirst i n last (ps.map (sealedFile H) ++ rest) =
        .ok { r with segments := ps.map sealedSegment ++ r.segments } := by
  induction ps generalizing isFirst i n last with
  | nil =>
    refine ⟨last, .inl ⟨rfl, rfl⟩, fun r hr => ?_⟩
    rw [List.isEmpty_nil, Bool.and_true] at hr
    exact hr
  | cons p ps ih =>
    obtain ⟨hlink, htail⟩ := h
    obtain ⟨hash, hiff⟩ := recoverSegments_sealed hc (hp p List.mem_cons_self) hn
    obtain ⟨last', hlast, hrec⟩ := ih false
      (some ⟨p.next, (p.sealedBytes H).length, true, false, hash⟩)
      (fun q hq => hp q (List.mem_cons_of_mem _ hq)) (by simp) htail
    refine ⟨last', .inr ?_, fun r hr => ?_⟩
    · rcases hlast with ⟨rfl, rfl⟩ | he
      · exact ⟨_, rfl, rfl, by simp⟩
      · simpa using he
    · rw [List.isEmpty_cons, Bool.and_false, endId_cons, endNext_cons] at hr
      exact (hiff _).mpr ⟨hlink, _, hrec r (by simpa using hr), rfl⟩

theorem chain_of_recoverSegments (hc : config.Valid) (hp : ∀ p ∈ ps, p.Ok config)
    (hn : isFirst = true → n = 1)
    (h : recoverSegments H config c (c + 1) isFirst i n last (ps.map (sealedFile H)) = .ok r) :
    Chain c i n ps := by
  induction ps generalizing isFirst i n last r with
  | nil => trivial
  | cons p ps ih =>
    obtain ⟨hash, hiff⟩ := recoverSegments_sealed hc (hp p List.mem_cons_self) hn
    obtain ⟨hlink, r', hr', -⟩ := (hiff r).mp h
    exact ⟨hlink, ih (fun q hq => hp q (List.mem_cons_of_mem _ hq)) (by simp) hr'⟩

def listingBytes (listing : Listing) : Nat := (listing.map fun file => file.2.length).sum

theorem admitListing_ok (hl : ∀ file ∈ listing, file.2.length ≤ config.segmentBytes)
    (hn : count + listing.length ≤ config.maxSegments)
    (hb : bytes + listingBytes listing ≤ config.maxTotalBytes) :
    admitListing config count bytes listing = .ok (bytes + listingBytes listing) := by
  induction listing generalizing count bytes with
  | nil => rfl
  | cons file rest ih =>
    have hcons : listingBytes (file :: rest) = file.2.length + listingBytes rest := rfl
    rw [hcons] at hb ⊢
    rw [List.length_cons] at hn
    rw [admitListing, Result.ensure_pos (by omega), Result.ok_bind,
      Result.ensure_pos (hl file List.mem_cons_self), Result.ok_bind,
      Result.ensure_pos (by omega), Result.ok_bind,
      ih (fun f hf => hl f (List.mem_cons_of_mem _ hf)) (by omega) (by omega), Nat.add_assoc]

theorem insertionSort_listing {listing files : Listing} (hp : listing.Perm files)
    (hs : files.Pairwise fun a b => a.1 < b.1) :
    listing.insertionSort (fun a b => a.1 ≤ b.1) = files := by
  let r : Nat × Bytes → Nat × Bytes → Prop := fun a b => a.1 ≤ b.1
  have : Std.Total r := ⟨fun a b => Nat.le_total a.1 b.1⟩
  have : IsTrans (Nat × Bytes) r := ⟨fun _ _ _ => Nat.le_trans⟩
  refine List.Perm.eq_of_pairwise ?_ (List.pairwise_insertionSort r listing)
    (hs.imp Nat.le_of_lt) ((List.perm_insertionSort r listing).trans hp)
  intro a b ha hb hab hba
  have ha : a ∈ files := ((List.perm_insertionSort r listing).trans hp).mem_iff.mp ha
  have hkeys : (files.map Prod.fst).Nodup :=
    (List.pairwise_map.mpr hs).imp fun h => Nat.ne_of_lt h
  exact List.inj_on_of_nodup_map hkeys ha hb (Nat.le_antisymm hab hba)

-- Layouts

/-- The segments of a journal: sealed ones and possibly an active last one. -/
structure Layout where
  sealed : List Piece
  active : Option Piece

def activeSegment (p : Piece) : Segment := ⟨p.id, p.bodySize, p.first, p.next - 1⟩

namespace Layout

def pieces (L : Layout) : List Piece := L.sealed ++ L.active.toList

def segments (L : Layout) : List Segment :=
  L.sealed.map sealedSegment ++ L.active.toList.map activeSegment

def files (H : Digest) (L : Layout) : Listing :=
  L.sealed.map (sealedFile H) ++ L.active.toList.map fun p => (p.id, p.body H)

def sealedSize (L : Layout) : Nat := (L.sealed.map fun p => p.bodySize + reservedSealBytes).sum

def bytes (L : Layout) : Nat := L.sealedSize + (L.active.map Piece.bodySize).getD 0

/-- The bytes of the files with room to seal the active one. -/
def reserved (L : Layout) : Nat :=
  L.bytes + if L.active.isSome then reservedSealBytes else 0

def next (L : Layout) : Nat := endNext 1 L.pieces

structure Ok (config : JournalConfig) (checkpoint : Nat) (L : Layout) : Prop where
  pieces : ∀ p ∈ L.pieces, p.Ok config
  sorted : L.pieces.Pairwise fun p q => p.id < q.id
  chain : Chain checkpoint 0 1 L.pieces
  count : L.pieces.length ≤ config.maxSegments
  budget : L.reserved ≤ config.maxTotalBytes

end Layout

/-- The journal that `open_with_checkpoint` builds from a layout. -/
def reopened (H : Digest) (config : JournalConfig) (checkpoint discarded : Nat) (L : Layout) :
    Journal where
  config := config
  segments := L.segments
  active := L.active.map fun p => ⟨p.bodySize, p.body H⟩
  nextSequence := max L.next (checkpoint + 1)
  nextSegmentId := endId 0 L.pieces + 1
  checkpointSequence := checkpoint
  diskBytes := L.bytes
  durableSequence := max L.next (checkpoint + 1) - 1
  tailBytesDiscarded := discarded

/-- The first sequence expected of a file after the sealed segments. -/
def contiguous (checkpoint : Nat) (ps : List Piece) (k : Nat) : Nat :=
  if ps.isEmpty && k != 1 then checkpoint + 1 else endNext 1 ps

/-- A last file `x` that is recovered as the active piece `p`. -/
inductive Cut (H : Digest) (config : JournalConfig) (checkpoint : Nat) (ps : List Piece)
    (x : Bytes) (p : Piece) : Prop where
  | torn (rest : Bytes) (hx : x = p.body H ++ rest)
      (ht : rest = [] ∨ Torn H config p.bodySize p.next rest)
  | short (hg : p.groups = []) (hx : x <+: segmentHeader H p.id p.first)
      (hl : x.length < headerBytes)
      (hf : locateFirst H p.id (checkpoint + 1) (contiguous checkpoint ps p.id) x = p.first)

def cutEnd (H : Digest) (x : Bytes) (p : Piece) : ScanEnd :=
  ⟨p.next, p.bodySize, false, decide (x.length < headerBytes), p.body H⟩

theorem Piece.headerBytes_le (p : Piece) : headerBytes ≤ p.bodySize := Nat.le_add_right _ _

theorem Cut.inspect_ok (hc : config.Valid) (hp : p.Ok config) (h : Cut H config c ps x p) :
    ∃ gs, inspect H config ⟨p.id, x.length, 0, 0⟩ true x p.first = .ok (gs, cutEnd H x p) := by
  cases h with
  | torn rest hx ht =>
    subst hx
    have hlen : ¬(p.body H ++ rest).length < headerBytes := by
      have := p.headerBytes_le
      simp
      omega
    refine ⟨replay p.first p.groups, ?_⟩
    rw [cutEnd, decide_eq_false hlen]
    rcases ht with rfl | ht
    · simpa using inspect_clean (H := H) (a := 0) (b := 0) hc hp
    · exact inspect_torn hc hp ht
  | short hg hx hl hf =>
    have hbody : p.body H = segmentHeader H p.id p.first := by simp [Piece.body, hg, frames]
    have hsize : p.bodySize = headerBytes := by simp [Piece.bodySize, hg, framesSize]
    have hnext : p.next = p.first := by simp [Piece.next, Piece.records, hg]
    refine ⟨[], ?_⟩
    rw [inspect_short hx hl, cutEnd, decide_eq_true hl, hbody, hsize, hnext]

theorem Cut.locateFirst_eq (hp : p.Ok config) (h : Cut H config c ps x p) :
    locateFirst H p.id (c + 1) (contiguous c ps p.id) x = p.first := by
  cases h with
  | torn rest hx ht =>
    rw [hx, Piece.body, List.append_assoc]
    exact locateFirst_header (p.first_le_next.trans_lt hp.next_lt)
  | short hg hx hl hf => exact hf

def repairOps (H : Digest) (x : Bytes) (p : Piece) : List Io :=
  if x.length < headerBytes then [.rewrite p.id (segmentHeader H p.id p.first)]
  else if x.length ≠ p.bodySize then [.truncate p.id p.bodySize]
  else []

def syncOps (L : Layout) : List Io := L.segments.map (fun s => .sync s.id) ++ [.syncDir]

theorem mem_syncOps (h : op ∈ syncOps L) : op = .syncDir ∨ ∃ k, op = .sync k := by
  rcases List.mem_append.mp h with h | h
  · obtain ⟨s, -, rfl⟩ := List.mem_map.mp h
    exact .inr ⟨_, rfl⟩
  · exact .inl (List.mem_singleton.mp h)

theorem recoverSegments_layout (hc : config.Valid) (hp : ∀ p ∈ ps, p.Ok config)
    (hchain : Chain c 0 1 ps) : ∃ last,
    (ps = [] ∧ last = none ∨
      ∃ e : ScanEnd, last = some e ∧ e.sealed = true ∧ e.next = endNext 1 ps) ∧
    recoverSegments H config c (c + 1) true 0 1 none (ps.map (sealedFile H)) =
      .ok ⟨ps.map sealedSegment, last, endId 0 ps⟩ := by
  obtain ⟨last, hlast, hrec⟩ := recoverSegments_chain (H := H) true none [] hc hp (fun _ => rfl)
    hchain
  refine ⟨last, hlast, ?_⟩
  have := hrec ⟨[], last, endId 0 ps⟩ rfl
  simpa using this

theorem recoverSegments_cut (hc : config.Valid) (hps : ∀ q ∈ ps ++ [p], q.Ok config)
    (hchain : Chain c 0 1 (ps ++ [p])) (hcut : Cut H config c ps x p) :
    recoverSegments H config c (c + 1) true 0 1 none (ps.map (sealedFile H) ++ [(p.id, x)]) =
      .ok ⟨ps.map sealedSegment ++ [⟨p.id, x.length, p.first, p.next - 1⟩], some (cutEnd H x p),
        p.id⟩ := by
  obtain ⟨hchain, hlink, -⟩ := Chain.append_iff.mp hchain
  have hp : p.Ok config := hps p (by simp)
  obtain ⟨last, -, hrec⟩ := recoverSegments_chain (H := H) true none [(p.id, x)] hc
    (fun q hq => hps q (List.mem_append_left _ hq)) (fun _ => rfl) hchain
  obtain ⟨gs, hi⟩ := hcut.inspect_ok hc hp
  rw [Bool.true_and] at hrec
  have hempty : ps.isEmpty = true → endNext 1 ps = 1 := by
    intro h
    rw [List.isEmpty_iff.mp h, endNext_nil]
  refine hrec ⟨[⟨p.id, x.length, p.first, p.next - 1⟩], some (cutEnd H x p), p.id⟩ ?_
  exact (recoverSegments_cons [] (hcut.locateFirst_eq hp) hp.first_pos hempty hi (.inl rfl)).mpr
    ⟨hlink, ⟨[], some (cutEnd H x p), p.id⟩, rfl, rfl⟩

-- Open

theorem pairwise_files {L : Layout} (h : L.pieces.Pairwise fun p q => p.id < q.id) :
    (L.files H).Pairwise fun a b => a.1 < b.1 := by
  have hids : (L.files H).map Prod.fst = L.pieces.map Piece.id := by
    simp only [Layout.files, Layout.pieces, List.map_append, List.map_map]
    rfl
  rw [← List.pairwise_map (f := Prod.fst) (R := (· < ·)), hids, List.pairwise_map]
  exact h

theorem openWithCheckpoint_eq (hv : config.validate = .ok ()) (hc : c + 1 < 2 ^ 64)
    (htotal : admitListing config 0 0 listing = .ok total) (hl : listing.Perm files)
    (hs : files.Pairwise fun a b => a.1 < b.1)
    (hrec : recoverSegments H config c (c + 1) true 0 1 none files = .ok recovered)
    (hid : recovered.previousId + 1 < 2 ^ 64)
    (hrepair : repair H config (found config c total recovered) recovered.last =
      .ok (ops, j)) :
    openWithCheckpoint H config c listing =
      .ok (ops ++ j.segments.map (fun s => .sync s.id) ++ [.syncDir], j) := by
  rw [openWithCheckpoint, hv, Result.ok_bind, Result.ensure_pos hc, Result.ok_bind, htotal,
    Result.ok_bind, insertionSort_listing hl hs, hrec, Result.ok_bind, Result.ensure_pos hid,
    Result.ok_bind, hrepair, Result.ok_bind]

theorem recoverSegments_of_open (h : openWithCheckpoint H config c listing = .ok opened)
    (hl : listing.Perm files) (hs : files.Pairwise fun a b => a.1 < b.1) :
    ∃ recovered, recoverSegments H config c (c + 1) true 0 1 none files = .ok recovered := by
  obtain ⟨-, -, h⟩ := bind_ok.mp h
  obtain ⟨-, -, h⟩ := bind_ok.mp h
  obtain ⟨total, -, h⟩ := bind_ok.mp h
  obtain ⟨recovered, hrec, -⟩ := bind_ok.mp h
  rw [insertionSort_listing hl hs] at hrec
  exact ⟨recovered, hrec⟩

theorem listingBytes_perm (h : listing.Perm files) : listingBytes listing = listingBytes files :=
  (h.map _).sum_nat

theorem listingBytes_append : listingBytes (files ++ more) =
    listingBytes files + listingBytes more := by
  simp [listingBytes]

theorem listingBytes_sealed : listingBytes (ps.map (sealedFile H)) = Layout.sealedSize ⟨ps, a⟩ := by
  simp [listingBytes, Layout.sealedSize, sealedFile, length_sealedBytes, Function.comp_def]

theorem endId_lt (hp : ∀ p ∈ ps, p.Ok config) : endId 0 ps + 1 < 2 ^ 64 := by
  unfold endId
  cases hl : ps.getLast? with
  | none => simp
  | some p => simpa using (hp p (List.mem_of_getLast? hl)).id_lt

theorem sealedFile_le {ps : List Piece} (hp : ∀ p ∈ ps, p.Ok config) :
    ∀ file ∈ ps.map (sealedFile H), file.2.length ≤ config.segmentBytes := by
  rintro _ hf
  obtain ⟨p, hp', rfl⟩ := List.mem_map.mp hf
  rw [sealedFile, length_sealedBytes]
  exact (hp p hp').fits

theorem openWithCheckpoint_sealed (hv : config.validate = .ok ()) (hc : c + 1 < 2 ^ 64)
    (hL : Layout.Ok config c ⟨ps, none⟩) (hl : listing.Perm (ps.map (sealedFile H))) :
    openWithCheckpoint H config c listing =
      .ok (syncOps ⟨ps, none⟩, reopened H config c 0 ⟨ps, none⟩) := by
  have hpieces : Layout.pieces ⟨ps, none⟩ = ps := List.append_nil _
  have hok := hL.pieces
  have hsorted := pairwise_files (H := H) hL.sorted
  have hchain := hL.chain
  have hcount := hL.count
  have hbudget := hL.budget
  rw [hpieces] at hok hchain hcount
  have hfiles : Layout.files H ⟨ps, none⟩ = ps.map (sealedFile H) := List.append_nil _
  rw [hfiles] at hsorted
  have hbytes : listingBytes listing = Layout.bytes ⟨ps, none⟩ := by
    rw [listingBytes_perm hl]
    exact listingBytes_sealed
  have htotal : admitListing config 0 0 listing = .ok (Layout.bytes ⟨ps, none⟩) := by
    rw [admitListing_ok, hbytes, Nat.zero_add]
    · exact fun f hf => sealedFile_le hok f (hl.mem_iff.mp hf)
    · rw [hl.length_eq, List.length_map, Nat.zero_add]
      exact hcount
    · rw [hbytes, Nat.zero_add]
      exact hbudget
  obtain ⟨last, hlast, hrec⟩ := recoverSegments_layout (H := H) (JournalConfig.valid hv) hok hchain
  have hfound : found config c (Layout.bytes ⟨ps, none⟩) ⟨ps.map sealedSegment, last, endId 0 ps⟩ =
      reopened H config c 0 ⟨ps, none⟩ := by
    have hnext : (last.map fun e => max e.next (c + 1)).getD (c + 1) =
        max (endNext 1 ps) (c + 1) := by
      rcases hlast with ⟨rfl, rfl⟩ | ⟨e, rfl, -, he⟩
      · simp
      · simp [he]
    simp [found, reopened, hnext, Layout.next, hpieces, Layout.segments]
  have hrepair : repair H config (reopened H config c 0 ⟨ps, none⟩) last =
      .ok ([], reopened H config c 0 ⟨ps, none⟩) := by
    rcases hlast with ⟨rfl, rfl⟩ | ⟨e, rfl, he, -⟩
    · rfl
    · unfold repair
      split
      · rename_i heq _
        cases heq
        rw [if_pos he]
      · rfl
  rw [← hfound] at hrepair
  rw [openWithCheckpoint_eq hv hc htotal hl hsorted hrec (endId_lt hok) hrepair, hfound]
  rfl

theorem openWithCheckpoint_cut (hv : config.validate = .ok ()) (hc : c + 1 < 2 ^ 64)
    (hL : Layout.Ok config c ⟨ps, some p⟩) (hcut : Cut H config c ps x p)
    (hx : x.length ≤ config.segmentBytes)
    (hb : Layout.sealedSize ⟨ps, some p⟩ + x.length ≤ config.maxTotalBytes)
    (hl : listing.Perm (ps.map (sealedFile H) ++ [(p.id, x)])) :
    openWithCheckpoint H config c listing =
      .ok (repairOps H x p ++ syncOps ⟨ps, some p⟩,
        reopened H config c (x.length - p.bodySize) ⟨ps, some p⟩) := by
  have hok : ∀ q ∈ ps ++ [p], q.Ok config := hL.pieces
  have hchain : Chain c 0 1 (ps ++ [p]) := hL.chain
  have hcount : (ps ++ [p]).length ≤ config.maxSegments := hL.count
  have hsorted : (ps.map (sealedFile H) ++ [(p.id, x)]).Pairwise fun a b => a.1 < b.1 := by
    have hids : (ps.map (sealedFile H) ++ [(p.id, x)]).map Prod.fst = (ps ++ [p]).map Piece.id := by
      simp [sealedFile, Function.comp_def]
    rw [← List.pairwise_map (f := Prod.fst) (R := (· < ·)), hids, List.pairwise_map]
    exact hL.sorted
  have hbytes : listingBytes listing = Layout.sealedSize ⟨ps, some p⟩ + x.length := by
    rw [listingBytes_perm hl, listingBytes_append, listingBytes_sealed]
    rfl
  have htotal : admitListing config 0 0 listing =
    .ok (Layout.sealedSize ⟨ps, some p⟩ + x.length) := by
    rw [admitListing_ok, hbytes, Nat.zero_add]
    · intro f hf
      rcases List.mem_append.mp (hl.mem_iff.mp hf) with hf | hf
      · exact sealedFile_le (fun q hq => hok q (List.mem_append_left _ hq)) f hf
      · rw [List.mem_singleton.mp hf]
        exact hx
    · simpa [hl.length_eq] using hcount
    · rw [hbytes, Nat.zero_add]
      exact hb
  have hrec := recoverSegments_cut (JournalConfig.valid hv) hok hchain hcut
  have hp := hok p (by simp)
  have hdiscarded : (if x.length < headerBytes then 0 else x.length - p.bodySize) =
      x.length - p.bodySize := by
    have hheader := p.headerBytes_le
    split <;> omega
  have hrepair : repair H config (found config c (Layout.sealedSize ⟨ps, some p⟩ + x.length)
      ⟨ps.map sealedSegment ++ [⟨p.id, x.length, p.first, p.next - 1⟩], some (cutEnd H x p), p.id⟩)
      (some (cutEnd H x p)) =
        .ok (repairOps H x p, reopened H config c (x.length - p.bodySize) ⟨ps, some p⟩) := by
    have hbudget : Layout.sealedSize ⟨ps, some p⟩ + p.bodySize + reservedSealBytes ≤
        config.maxTotalBytes := hL.budget
    have htotal : Layout.sealedSize ⟨ps, some p⟩ + x.length - x.length + p.bodySize =
        Layout.sealedSize ⟨ps, some p⟩ + p.bodySize := by omega
    have hnext : Layout.next ⟨ps, some p⟩ = p.next := by simp [Layout.next, Layout.pieces]
    have hid : endId 0 (Layout.pieces ⟨ps, some p⟩) = p.id := by simp [Layout.pieces]
    simp only [repair, found, List.getLast?_concat, cutEnd, Bool.false_eq_true, ↓reduceIte,
      repairLast, htotal, Result.ensure_pos hbudget, Result.ensure_pos hp.fits, Result.ok_bind,
      setLast_concat, decide_eq_true_eq, hdiscarded, repairOps, reopened, hnext, hid]
    rfl
  have := openWithCheckpoint_eq hv hc htotal hl hsorted hrec hp.id_lt hrepair
  rw [this, syncOps, List.append_assoc]
  rfl

theorem find?_key {files : Listing} (hs : (files.map Prod.fst).Nodup) (hf : (k, content) ∈ files) :
    files.find? (·.1 == k) = some (k, content) := by
  cases h : files.find? (·.1 == k) with
  | none => exact absurd (List.find?_eq_none.mp h _ hf) (by simp)
  | some file =>
    have hk : file.1 = k := by simpa using List.find?_some h
    rw [List.inj_on_of_nodup_map hs (List.mem_of_find?_eq_some h) hf hk]

def replayed (ps : List Piece) : List ReplayGroup := ps.flatMap fun p => replay p.first p.groups

theorem scanSegments_cons {j : Journal} {segment : Segment} (hs : (files.map Prod.fst).Nodup)
    (hf : (segment.id, content) ∈ files)
    (hi : inspect H j.config segment false content segment.first = .ok (gs, e))
    (he : rest = [] ∨ e.sealed = true) (hl : e.next = segment.last + 1)
    (hrest : scanSegments H j files (max e.next (j.checkpointSequence + 1)) rest = .ok later) :
    scanSegments H j files n (segment :: rest) = .ok (gs ++ later) := by
  rw [scanSegments, find?_key hs hf]
  dsimp only
  rw [hi, Result.ok_bind]
  dsimp only
  rw [Result.ensure_pos he, Result.ok_bind, Result.ensure_pos hl, Result.ok_bind, hrest,
    Result.ok_bind]

theorem Piece.Ok.last_succ {p : Piece} (hp : p.Ok config) : p.next = p.next - 1 + 1 := by
  have := hp.first_pos
  have := p.first_le_next
  omega

theorem scanSegments_layout {j : Journal} {o : Option Piece} (hc : j.config.Valid)
    (hp : ∀ p ∈ ps ++ o.toList, p.Ok j.config) (hs : (files.map Prod.fst).Nodup)
    (hf : ∀ file ∈ Layout.files H ⟨ps, o⟩, file ∈ files)
    (hn : max (endNext m (ps ++ o.toList)) (j.checkpointSequence + 1) = j.nextSequence) :
    scanSegments H j files (max m (j.checkpointSequence + 1)) (Layout.segments ⟨ps, o⟩) =
      .ok (replayed (ps ++ o.toList)) := by
  induction ps generalizing m with
  | nil =>
    cases o with
    | none =>
      simp only [Option.toList_none, List.append_nil, endNext_nil] at hn
      simp [Layout.segments, scanSegments, hn, replayed]
    | some p =>
      simp only [Option.toList_some, List.nil_append, endNext_cons, endNext_nil] at hn hp
      have hp := hp p (by simp)
      have hi : inspect H j.config ⟨p.id, (p.body H).length, p.first, p.next - 1⟩ false (p.body H)
          p.first = .ok _ := inspect_clean hc hp
      rw [Piece.length_body] at hi
      have hend : scanSegments H j files (max p.next (j.checkpointSequence + 1)) [] = .ok [] := by
        simp [scanSegments, hn]
      exact scanSegments_cons hs (hf (p.id, p.body H) (by simp [Layout.files])) hi (.inl rfl)
        hp.last_succ hend
  | cons p ps ih =>
    have hok := hp p (by simp)
    obtain ⟨hash, hi⟩ := inspect_sealed (H := H) (a := p.first) (b := p.next - 1) hc
      hok.fitting (Nat.lt_of_succ_lt hok.id_lt)
    rw [length_sealedBytes] at hi
    refine scanSegments_cons hs (hf (sealedFile H p) (by simp [Layout.files])) hi (.inr rfl)
      hok.last_succ ?_
    refine ih (fun q hq => hp q (List.mem_cons_of_mem _ hq)) (fun f hmem => hf f ?_)
      (by simpa using hn)
    exact List.mem_cons_of_mem _ hmem

end

end Varve.Journal
