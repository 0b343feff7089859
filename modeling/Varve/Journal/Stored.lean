import Mathlib.Algebra.Order.BigOperators.Group.List
import Varve.Journal.History

/-!
# Segments that store a history

How the layout of a directory and the history it stores change together.
-/

namespace Varve.Journal

variable {config : JournalConfig} {L : Layout}

/-- A layout that opens under a checkpoint and holds a history above it. -/
structure Stored (config : JournalConfig) (checkpoint : Nat) (K : List Bytes) (L : Layout) : Prop
    extends Layout.Ok config checkpoint L where
  records : ∀ p ∈ L.pieces, p.records <+: K.drop (p.first - 1)
  reach : max L.next (checkpoint + 1) = K.length + 1

@[simp] theorem pieces_sealed : Layout.pieces ⟨ps, none⟩ = ps := List.append_nil _
@[simp] theorem pieces_active : Layout.pieces ⟨ps, some p⟩ = ps ++ [p] := rfl

theorem stored_empty : Stored config 0 [] ⟨[], none⟩ :=
  ⟨⟨by simp, by simp, trivial, Nat.zero_le _, Nat.zero_le _⟩, by simp, rfl⟩

theorem Stored.checkpoint_le (h : Stored config c K L) : c ≤ K.length := by
  have := h.reach
  omega

theorem Stored.above_eq (h : Stored config c K L) :
    above c (items L.pieces) = above c (numbered 1 K) :=
  above_items_history h.chain h.records h.reach

theorem Stored.advance (h : Stored config c K L) (hc : c ≤ c') (hK : c' ≤ K.length) :
    Stored config c' K L where
  pieces := h.pieces
  sorted := h.sorted
  chain := h.chain.mono hc
  count := h.count
  budget := h.budget
  records := h.records
  reach := by
    have := h.reach
    omega

/-- What a layout asks of the segments before its active one. -/
structure Prior (config : JournalConfig) (checkpoint : Nat) (K : List Bytes) (ps : List Piece) :
    Prop where
  pieces : ∀ p ∈ ps, p.Ok config
  sorted : ps.Pairwise fun p q => p.id < q.id
  chain : Chain checkpoint 0 1 ps
  records : ∀ p ∈ ps, p.records <+: K.drop (p.first - 1)

structure Last (config : JournalConfig) (checkpoint : Nat) (K : List Bytes) (ps : List Piece)
    (p : Piece) : Prop where
  piece : p.Ok config
  ids : ∀ q ∈ ps, q.id < p.id
  link : Link checkpoint (endId 0 ps) (endNext 1 ps) p.id p.first
  count : ps.length < config.maxSegments
  budget : Layout.bytes ⟨ps, none⟩ + p.bodySize + reservedSealBytes ≤ config.maxTotalBytes
  records : p.records <+: K.drop (p.first - 1)
  reach : max p.next (checkpoint + 1) = K.length + 1

theorem Stored.prior (h : Stored config c K ⟨ps, none⟩) : Prior config c K ps where
  pieces := by simpa using h.pieces
  sorted := by simpa using h.sorted
  chain := by simpa using h.chain
  records := by simpa using h.records

theorem bytes_active : Layout.bytes ⟨ps, some p⟩ = Layout.bytes ⟨ps, none⟩ + p.bodySize := by
  simp [Layout.bytes, Layout.sealedSize]

theorem reserved_active : Layout.reserved ⟨ps, some p⟩ =
    Layout.bytes ⟨ps, none⟩ + p.bodySize + reservedSealBytes := by
  simp [Layout.reserved, bytes_active]

theorem next_active : Layout.next ⟨ps, some p⟩ = p.next := by simp [Layout.next]

theorem stored_active : Stored config c K ⟨ps, some p⟩ ↔
    Prior config c K ps ∧ Last config c K ps p := by
  constructor
  · intro h
    obtain ⟨hs, -, hids⟩ := List.pairwise_append.mp h.sorted
    obtain ⟨hchain, hlink, -⟩ := Chain.append_iff.mp h.chain
    refine ⟨⟨fun q hq => h.pieces q (List.mem_append_left _ hq), hs, hchain,
      fun q hq => h.records q (List.mem_append_left _ hq)⟩,
      h.pieces p (by simp), fun q hq => hids q hq p List.mem_cons_self, hlink, ?_, ?_,
      h.records p (by simp), ?_⟩
    · simpa [Nat.succ_le_iff] using h.count
    · exact reserved_active ▸ h.budget
    · exact next_active ▸ h.reach
  · rintro ⟨hprior, hlast⟩
    refine {
      pieces := ?_
      sorted := List.pairwise_append.mpr ⟨hprior.sorted, List.pairwise_singleton _ _, ?_⟩
      chain := Chain.append_iff.mpr ⟨hprior.chain, hlast.link, trivial⟩
      count := by simpa [Nat.succ_le_iff] using hlast.count
      budget := reserved_active ▸ hlast.budget
      records := ?_
      reach := next_active ▸ hlast.reach }
    · intro q hq
      rcases List.mem_append.mp hq with hq | hq
      · exact hprior.pieces q hq
      · rw [List.mem_singleton.mp hq]
        exact hlast.piece
    · intro q hq r hr
      rw [List.mem_singleton.mp hr]
      exact hlast.ids q hq
    · intro q hq
      rcases List.mem_append.mp hq with hq | hq
      · exact hprior.records q hq
      · rw [List.mem_singleton.mp hq]
        exact hlast.records

theorem bytes_concat :
    Layout.bytes ⟨ps ++ [p], none⟩ = Layout.bytes ⟨ps, some p⟩ + reservedSealBytes := by
  simp [Layout.bytes, Layout.sealedSize, Nat.add_assoc]

theorem Stored.close (h : Stored config c K ⟨ps, some p⟩) :
    Stored config c K ⟨ps ++ [p], none⟩ where
  pieces := by simpa using h.pieces
  sorted := by simpa using h.sorted
  chain := by simpa using h.chain
  count := by simpa using h.count
  budget := by
    have hb : Layout.bytes ⟨ps, some p⟩ + reservedSealBytes ≤ config.maxTotalBytes := h.budget
    rw [← bytes_concat] at hb
    exact hb
  records := by simpa using h.records
  reach := by simpa [Layout.next] using h.reach

theorem id_le_endId {ps : List Piece} (hs : ps.Pairwise fun p q => p.id < q.id) :
    ∀ p ∈ ps, p.id ≤ endId i ps := by
  intro p hp
  obtain rfl | ⟨qs, q, rfl⟩ := List.eq_nil_or_concat ps
  · cases hp
  rw [List.concat_eq_append] at hs hp ⊢
  rw [endId_append, endId_cons, endId_nil]
  rcases List.mem_append.mp hp with hp | hp
  · exact Nat.le_of_lt ((List.pairwise_append.mp hs).2.2 p hp q List.mem_cons_self)
  · rw [List.mem_singleton.mp hp]

/-- The id a new segment takes: the next one, or any once a checkpoint covers
everything there was. -/
def NextId (checkpoint : Nat) (ps : List Piece) (k : Nat) : Prop :=
  k = endId 0 ps + 1 ∨ ps = [] ∧ 0 < checkpoint ∧ 0 < k

theorem NextId.lt (h : NextId c ps k) (hs : ps.Pairwise fun p q => p.id < q.id) :
    ∀ p ∈ ps, p.id < k := by
  intro p hp
  rcases h with rfl | ⟨rfl, -⟩
  · exact Nat.lt_succ_of_le (id_le_endId hs p hp)
  · cases hp

theorem Stored.first_eq (h : Stored config c K ⟨ps, none⟩) (hk : NextId c ps k) :
    K.length + 1 = contiguous c ps k ∨ K.length + 1 = c + 1 := by
  have hreach : max (endNext 1 ps) (c + 1) = K.length + 1 := by
    simpa [Layout.next] using h.reach
  have hle := h.chain.le_endNext
  unfold contiguous
  split
  · rename_i hcond
    have hps : ps = [] := by
      simp only [Bool.and_eq_true, List.isEmpty_iff] at hcond
      exact hcond.1
    subst hps
    rw [endNext_nil] at hreach
    omega
  · omega

theorem Piece.ok_empty (hv : config.Valid) (hk : 0 < k) (hlt : k + 1 < 2 ^ 64) (hn : 0 < n)
    (hn' : n < 2 ^ 64) : Piece.Ok config ⟨k, n, []⟩ := by
  refine ⟨hk, hlt, hn, hn', by simp, ?_⟩
  have hsegment := hv.segment
  simp only [JournalConfig.minimum, Piece.bodySize, framesSize, headerBytes, reservedSealBytes,
    List.map_nil, List.sum_nil] at hsegment ⊢
  omega

theorem Stored.start (hv : config.Valid) (h : Stored config c K ⟨ps, none⟩) (hk : NextId c ps k)
    (hlt : k + 1 < 2 ^ 64) (hK : K.length + 1 < 2 ^ 64) (hcount : ps.length < config.maxSegments)
    (hbudget : Layout.bytes ⟨ps, none⟩ + headerBytes + reservedSealBytes ≤ config.maxTotalBytes) :
    Stored config c K ⟨ps, some ⟨k, K.length + 1, []⟩⟩ := by
  have hreach : max (endNext 1 ps) (c + 1) = K.length + 1 := by
    simpa [Layout.next] using h.reach
  have hpos : 0 < k := by
    rcases hk with rfl | ⟨-, -, hk⟩
    · exact Nat.succ_pos _
    · exact hk
  have hlink : Link c (endId 0 ps) (endNext 1 ps) k (K.length + 1) := by
    refine ⟨by omega, by omega, ?_⟩
    rcases hk with rfl | ⟨rfl, hc, -⟩
    · exact .inl rfl
    · rw [endNext_nil] at hreach ⊢
      exact .inr (by omega)
  refine stored_active.mpr ⟨h.prior, Piece.ok_empty hv hpos hlt (Nat.succ_pos _) hK,
    hk.lt h.prior.sorted, hlink, hcount, hbudget, List.nil_prefix, ?_⟩
  show max (K.length + 1) (c + 1) = K.length + 1
  omega

namespace Piece

def push (p : Piece) (group : List Bytes) : Piece := { p with groups := p.groups ++ [group] }

variable {p : Piece}

theorem records_push : (p.push g).records = p.records ++ g := by simp [push, records]

theorem next_push : (p.push g).next = p.next + g.length := by
  rw [next, next, records_push, List.length_append, ← Nat.add_assoc]
  rfl

theorem bodySize_push : (p.push g).bodySize = p.bodySize + frameSize g := by
  simp [push, bodySize, framesSize, Nat.add_assoc]

theorem body_push : (p.push g).body H = p.body H ++ frame H p.next g := by
  simp only [body, push, frames_append, List.append_assoc]
  simp [frames, next, records]

end Piece

theorem Prior.extend (h : Prior config c K ps) : Prior config c (K ++ g) ps where
  pieces := h.pieces
  sorted := h.sorted
  chain := h.chain
  records := by
    intro q hq
    rw [List.drop_append]
    exact (h.records q hq).trans (List.prefix_append _ _)

theorem Stored.push (h : Stored config c K ⟨ps, some p⟩) (hg : GroupOk config g)
    (hp : p.next = K.length + 1) (hK : K.length + g.length + 1 < 2 ^ 64)
    (hfit : p.bodySize + frameSize g + reservedSealBytes ≤ config.segmentBytes)
    (hbudget : Layout.bytes ⟨ps, some p⟩ + frameSize g + reservedSealBytes ≤
      config.maxTotalBytes) :
    Stored config c (K ++ g) ⟨ps, some (p.push g)⟩ := by
  obtain ⟨hprior, hlast⟩ := stored_active.mp h
  have hok := hlast.piece
  have hpos := hok.first_pos
  have hfirst : p.first ≤ K.length + 1 := hp ▸ p.first_le_next
  have hzero : p.first - 1 - K.length = 0 := by omega
  have hdrop : (K ++ g).drop (p.first - 1) = K.drop (p.first - 1) ++ g := by
    rw [List.drop_append, hzero, List.drop_zero]
  -- the active segment reaches the end of the history, so it holds all of its stretch
  have hall : p.records = K.drop (p.first - 1) := by
    refine hlast.records.eq_of_length ?_
    have : p.first + p.records.length = K.length + 1 := hp
    rw [List.length_drop]
    omega
  have hnew : (p.push g).Ok config := by
    refine { hok with next_lt := ?_, groups := ?_, fits := ?_ }
    · rw [Piece.next_push]
      omega
    · intro g' hg'
      rcases List.mem_append.mp hg' with hg' | hg'
      · exact hok.groups g' hg'
      · rw [List.mem_singleton.mp hg']
        exact hg
    · rw [Piece.bodySize_push]
      exact hfit
  refine stored_active.mpr ⟨hprior.extend, hnew, hlast.ids, hlast.link, hlast.count, ?_, ?_, ?_⟩
  · rw [bytes_active] at hbudget
    rw [Piece.bodySize_push]
    omega
  · rw [Piece.records_push, hall]
    exact hdrop ▸ List.prefix_rfl
  · have := h.checkpoint_le
    rw [Piece.next_push, hp, List.length_append]
    omega

-- Retirement

def visible (ks : List (Piece × Bool)) : List Piece := (ks.filter (·.2)).map Prod.fst

@[simp] theorem visible_nil : visible [] = [] := rfl
@[simp] theorem visible_linked : visible ((p, true) :: ks) = p :: visible ks := rfl
@[simp] theorem visible_unlinked : visible ((p, false) :: ks) = visible ks := rfl

theorem visible_sublist : (visible ks).Sublist (ks.map Prod.fst) :=
  List.filter_sublist.map _

@[simp] theorem visible_map_linked : visible (ps.map fun p => (p, true)) = ps := by
  induction ps with
  | nil => rfl
  | cons p ps ih => simp [ih]

theorem Chain.of_cons (h : Chain c i n (p :: ps)) (hp : p.next ≤ c + 1) (hc : 0 < c) :
    Chain c i n ps := by
  cases ps with
  | nil => trivial
  | cons q qs =>
    obtain ⟨⟨horder, -, -⟩, ⟨horder', hgap', -⟩, htail⟩ := h
    have := p.first_le_next
    exact ⟨⟨by omega, by omega, .inr (by omega)⟩, htail⟩

theorem Chain.visible (hc : 0 < c) (h : Chain c i n (ks.map Prod.fst ++ rest))
    (hk : ∀ k ∈ ks, k.2 = false → k.1.next ≤ c + 1) : Chain c i n (visible ks ++ rest) := by
  induction ks generalizing i n with
  | nil => exact h
  | cons k ks ih =>
    obtain ⟨p, linked⟩ := k
    have hks : ∀ k ∈ ks, k.2 = false → k.1.next ≤ c + 1 :=
      fun k hmem => hk k (List.mem_cons_of_mem _ hmem)
    cases linked with
    | true => exact ⟨h.1, ih h.2 hks⟩
    | false => exact ih (h.of_cons (hk _ List.mem_cons_self rfl) hc) hks

theorem max_endNext_visible (h : Chain c' i n (ks.map Prod.fst ++ rest))
    (hk : ∀ k ∈ ks, k.2 = false → k.1.next ≤ c + 1) :
    max (endNext n (Journal.visible ks ++ rest)) (c + 1) =
      max (endNext n (ks.map Prod.fst ++ rest)) (c + 1) := by
  induction ks generalizing i n with
  | nil => rfl
  | cons k ks ih =>
    obtain ⟨p, linked⟩ := k
    have hks : ∀ k ∈ ks, k.2 = false → k.1.next ≤ c + 1 :=
      fun k hmem => hk k (List.mem_cons_of_mem _ hmem)
    have hrest := ih h.2 hks
    cases linked with
    | true => simpa using hrest
    | false =>
      have hcovered : p.next ≤ c + 1 := hk _ List.mem_cons_self rfl
      have hn : n ≤ p.next := h.1.order.trans p.first_le_next
      have hempty : max (endNext n (Journal.visible ks ++ rest)) (c + 1) =
          max (endNext p.next (Journal.visible ks ++ rest)) (c + 1) := by
        cases hvis : Journal.visible ks ++ rest with
        | nil => rw [endNext_nil, endNext_nil]; omega
        | cons q qs => rw [endNext_cons, endNext_cons]
      rw [visible_unlinked, List.map_cons, List.cons_append, endNext_cons, hempty]
      exact hrest

/-- What may be missing of a layout: covered segments, of a positive checkpoint
or as the whole of the layout. -/
structure Retired (checkpoint : Nat) (ks : List (Piece × Bool)) (o : Option Piece) : Prop where
  covered : ∀ k ∈ ks, k.2 = false → k.1.next ≤ checkpoint + 1
  authority : ∀ k ∈ ks, k.2 = false → 0 < checkpoint ∨ ks.length = 1 ∧ o = none

theorem chain_visible {o : Option Piece} (h : Chain c 0 1 (ks.map Prod.fst ++ o.toList))
    (hr : Retired c ks o) : Chain c 0 1 (visible ks ++ o.toList) := by
  by_cases hall : ∃ k ∈ ks, k.2 = false
  · obtain ⟨k, hmem, hk⟩ := hall
    rcases hr.authority k hmem hk with hc | ⟨hlen, ho⟩
    · exact Chain.visible hc h hr.covered
    · obtain ⟨k', rfl⟩ := List.length_eq_one_iff.mp hlen
      rw [List.mem_singleton] at hmem
      subst hmem ho
      simp [visible, hk, Chain]
  · have hvis : visible ks = ks.map Prod.fst := by
      rw [visible, List.filter_eq_self.mpr]
      intro k hmem
      cases hk : k.2 with
      | true => rfl
      | false => exact absurd ⟨k, hmem, hk⟩ hall
    rw [hvis]
    exact h

theorem sealedSize_visible :
    Layout.sealedSize ⟨visible ks, o⟩ ≤ Layout.sealedSize ⟨ks.map Prod.fst, o⟩ :=
  (visible_sublist.map _).sum_le_sum fun _ _ => Nat.zero_le _

theorem Stored.of_visible {o : Option Piece} (h : Stored config c K ⟨ks.map Prod.fst, o⟩)
    (hk : ∀ k ∈ ks, k.2 = false → k.1.next ≤ c + 1)
    (hc : Chain c 0 1 (Journal.visible ks ++ o.toList)) :
    Stored config c K ⟨Journal.visible ks, o⟩ := by
  have hsub : (Layout.pieces ⟨Journal.visible ks, o⟩).Sublist
      (Layout.pieces ⟨ks.map Prod.fst, o⟩) :=
    visible_sublist.append (List.Sublist.refl _)
  exact {
    pieces := fun p hp => h.pieces p (hsub.subset hp)
    sorted := h.sorted.sublist hsub
    chain := hc
    count := hsub.length_le.trans h.count
    budget := by
      have hsize : Layout.sealedSize ⟨Journal.visible ks, o⟩ ≤
          Layout.sealedSize ⟨ks.map Prod.fst, o⟩ := sealedSize_visible
      have hb := h.budget
      simp only [Layout.reserved, Layout.bytes] at hb ⊢
      omega
    records := fun p hp => h.records p (hsub.subset hp)
    reach := (max_endNext_visible h.chain hk).trans h.reach }

theorem Stored.visible {o : Option Piece} (h : Stored config c K ⟨ks.map Prod.fst, o⟩)
    (hr : Retired c ks o) : Stored config c K ⟨Journal.visible ks, o⟩ :=
  h.of_visible hr.covered (chain_visible h.chain hr)

end Varve.Journal
