import Varve.Journal.Stored

/-!
# Interrupted directories

What an operation leaves of the directory when it is cut short, at whatever point, and what a crash
and any number of interrupted reopenings may make of that.
-/

namespace Varve.Journal

open Disk (File Through run apply view)

abbrev Directory := Disk.Dir Nat UInt8

section
variable (H : Digest)

/-- The entry of a sealed segment, which is linked or awaits its removal. -/
def sealedEntry (k : Piece × Bool) : Nat × File UInt8 :=
  (k.1.id, { File.settled (k.1.sealedBytes H) with linked := k.2 })

def activeEntry (p : Piece) : Nat × File UInt8 := (p.id, .settled (p.body H))

def entries (ps : List Piece) : Directory := ps.map fun p => sealedEntry H (p, true)

/-- The directory of a layout with nothing left to sync. -/
def settledDir (L : Layout) : Directory := entries H L.sealed ++ L.active.toList.map (activeEntry H)

end

variable {H : Digest} {config : JournalConfig}

theorem view_entries (hf : f.linked = true) :
    view (entries H ps ++ [(k, f)]) = ps.map (sealedFile H) ++ [(k, f.content)] := by
  have hps : view (entries H ps) = ps.map (sealedFile H) := by
    induction ps with
    | nil => rfl
    | cons p ps ih => exact congrArg (sealedFile H p :: ·) ih
  simp only [view, List.filter_append, List.map_append] at hps ⊢
  rw [hps]
  simp [hf]

theorem view_kept {o : Option Piece} :
    view (ks.map (sealedEntry H) ++ o.toList.map (activeEntry H)) =
      Layout.files H ⟨visible ks, o⟩ := by
  have hks : view (ks.map (sealedEntry H)) = (visible ks).map (sealedFile H) := by
    induction ks with
    | nil => rfl
    | cons k ks ih =>
      obtain ⟨p, linked⟩ := k
      cases linked with
      | true => exact congrArg (sealedFile H p :: ·) ih
      | false => exact ih
  simp only [view, List.filter_append, List.map_append] at hks ⊢
  rw [hks]
  cases o <;> rfl

theorem view_settledDir : view (settledDir H L) = L.files H := by
  have hview : view ((L.sealed.map (·, true)).map (sealedEntry H) ++
      L.active.toList.map (activeEntry H)) = _ := view_kept
  have hvisible : visible (L.sealed.map (·, true)) = L.sealed := visible_map_linked
  rw [hvisible, List.map_map] at hview
  exact hview

-- The last file

/-- What may be found in the last file, named `k`, after sealed segments: the
start of a header, a body with or without a torn tail, or a sealed segment. -/
inductive Ending (H : Digest) (config : JournalConfig) (checkpoint : Nat) (K : List Bytes)
    (ps : List Piece) (k : Nat) (x : Bytes) : Prop where
  | header (first : Nat) (hL : Stored config checkpoint K ⟨ps, some ⟨k, first, []⟩⟩)
      (hf : first = contiguous checkpoint ps k ∨ first = checkpoint + 1)
      (hx : x <+: segmentHeader H k first)
  | body (p : Piece) (hk : p.id = k) (hL : Stored config checkpoint K ⟨ps, some p⟩) (rest : Bytes)
      (hx : x = p.body H ++ rest) (ht : rest = [] ∨ Torn H config p.bodySize p.next rest)
      (hfit : x.length ≤ config.segmentBytes)
      (hbudget : Layout.sealedSize ⟨ps, some p⟩ + x.length ≤ config.maxTotalBytes)
  | sealed (p : Piece) (hk : p.id = k) (hL : Stored config checkpoint K ⟨ps ++ [p], none⟩)
      (hx : x = p.sealedBytes H)

theorem Ending.fresh (h : Ending H config c K ps k x) : ∀ p ∈ ps, p.id ≠ k := by
  intro p hp
  cases h with
  | header first hL => exact Nat.ne_of_lt ((stored_active.mp hL).2.ids p hp)
  | body q hk hL => exact hk ▸ Nat.ne_of_lt ((stored_active.mp hL).2.ids p hp)
  | sealed q hk hL =>
    have hids := (List.pairwise_append.mp hL.prior.sorted).2.2
    exact hk ▸ Nat.ne_of_lt (hids p hp q List.mem_cons_self)

theorem Stored.ending (h : Stored config c K ⟨ps, some p⟩) :
    Ending H config c K ps p.id (p.body H) := by
  have hfits := (h.pieces p (by simp)).fits
  have hbudget : Layout.sealedSize ⟨ps, some p⟩ + p.bodySize + reservedSealBytes ≤
      config.maxTotalBytes := h.budget
  refine .body p rfl h [] (List.append_nil _).symm (.inl rfl) ?_ ?_ <;> rw [Piece.length_body] <;>
    omega

theorem locateFirst_start (hf : first = m ∨ first = c + 1) (hlt : first < 2 ^ 64)
    (hx : x <+: segmentHeader H k first) :
    ∃ first', (first' = m ∨ first' = c + 1) ∧ (first' = first ∨ first' = m) ∧
      x <+: segmentHeader H k first' ∧ locateFirst H k (c + 1) m x = first' := by
  have hlen := hx.length_le
  by_cases h32 : 32 ≤ x.length
  · refine ⟨first, hf, .inl rfl, hx, ?_⟩
    obtain ⟨rest, hrest⟩ := hx
    have htake : x.take 32 = headerFields k first := by
      have hstart : (x ++ rest).take 32 = x.take 32 := List.take_append_of_le_length h32
      rw [← hstart, hrest, segmentHeader, List.take_left' length_headerFields]
    rw [locateFirst, if_pos (by omega), htake, word_headerFields hlt]
  · have hmin : min x.length 32 = x.length := by omega
    have hne : ¬min x.length 32 = 32 := by omega
    by_cases hm : x = (segmentHeader H k m).take x.length
    · refine ⟨m, .inl rfl, .inr rfl, hm ▸ List.take_prefix _ _, ?_⟩
      rw [locateFirst, if_neg hne, hmin, List.take_length, if_pos hm]
    · have hfirst : first = c + 1 := by
        rcases hf with rfl | hf
        · exact absurd (List.prefix_iff_eq_take.mp hx) hm
        · exact hf
      refine ⟨first, hf, .inl rfl, hx, ?_⟩
      rw [locateFirst, if_neg hne, hmin, List.take_length, if_neg hm, hfirst]

theorem Stored.rehead (hc : c + 1 < 2 ^ 64)
    (h : Stored config c K ⟨ps, some ⟨k, first, []⟩⟩) :
    Stored config c K ⟨ps, some ⟨k, contiguous c ps k, []⟩⟩ := by
  obtain ⟨hprior, hlast⟩ := stored_active.mp h
  have hlt : first < 2 ^ 64 := hlast.piece.next_lt
  have hreach : max first (c + 1) = K.length + 1 := hlast.reach
  have horder : endNext 1 ps ≤ first := hlast.link.order
  have hgap : first = endNext 1 ps ∨ first ≤ c + 1 := hlast.link.gap
  have hone : 1 ≤ endNext 1 ps := hprior.chain.le_endNext
  have hcont : contiguous c ps k = endNext 1 ps ∨
      contiguous c ps k = c + 1 ∧ endNext 1 ps = 1 := by
    unfold contiguous
    split
    · rename_i hcond
      simp only [Bool.and_eq_true, List.isEmpty_iff] at hcond
      rw [hcond.1]
      exact .inr ⟨rfl, rfl⟩
    · exact .inl rfl
  generalize contiguous c ps k = m at hcont
  refine stored_active.mpr ⟨hprior, { hlast.piece with first_pos := ?_, next_lt := ?_ }, hlast.ids,
    ⟨?_, ?_, ?_⟩, hlast.count, hlast.budget, List.nil_prefix, ?_⟩
  · show 0 < m
    omega
  · show m < 2 ^ 64
    omega
  · show endNext 1 ps ≤ m
    omega
  · show m = endNext 1 ps ∨ m ≤ c + 1
    omega
  · refine hlast.link.ids.imp_right fun hpos => ?_
    show 0 < c ∧ endNext 1 ps ≤ c + 1 ∧ m ≤ c + 1
    omega
  · show max m (c + 1) = K.length + 1
    omega

-- Repairs

/-- The repair of a last file `x`: the I/O, the layout it makes of the directory
and the file it leaves. -/
inductive Repair (H : Digest) (config : JournalConfig) (checkpoint : Nat) (K : List Bytes)
    (ps : List Piece) (k : Nat) (x : Bytes) : List Io → Layout → Bytes → Prop where
  | none (hL : Stored config checkpoint K L)
      (hd : settledDir H L = entries H ps ++ [(k, .settled x)]) :
      Repair H config checkpoint K ps k x [] L x
  | truncate (p : Piece) (hk : p.id = k) (hL : Stored config checkpoint K ⟨ps, some p⟩)
      (hx : x = p.body H ++ rest) :
      Repair H config checkpoint K ps k x [.truncate k p.bodySize] ⟨ps, some p⟩ (p.body H)
  | rewrite (hL : Stored config checkpoint K ⟨ps, some ⟨k, first, []⟩⟩)
      (hf : first = contiguous checkpoint ps k ∨ first = checkpoint + 1)
      (hx : x <+: segmentHeader H k first) :
      Repair H config checkpoint K ps k x [.rewrite k (segmentHeader H k first)]
        ⟨ps, some ⟨k, first, []⟩⟩ (segmentHeader H k first)

theorem body_empty : Piece.body H ⟨k, first, []⟩ = segmentHeader H k first := List.append_nil _

theorem settledDir_active (hk : p.id = k) :
    settledDir H ⟨ps, some p⟩ = entries H ps ++ [(k, .settled (p.body H))] := by
  subst hk
  rfl

theorem settledDir_sealed (hk : p.id = k) :
    settledDir H ⟨ps ++ [p], none⟩ = entries H ps ++ [(k, .settled (p.sealedBytes H))] := by
  subst hk
  simp only [settledDir, entries, List.map_append]
  exact List.append_nil _

theorem Repair.settledDir_eq (h : Repair H config c K ps k x ops L y) :
    settledDir H L = entries H ps ++ [(k, .settled y)] := by
  cases h with
  | none _ hd => exact hd
  | truncate p hk => exact settledDir_active hk
  | rewrite => rw [settledDir_active rfl, body_empty]

theorem Repair.stored (h : Repair H config c K ps k x ops L y) : Stored config c K L := by
  cases h <;> assumption

theorem Ending.opens (hv : config.validate = .ok ()) (hc : c + 1 < 2 ^ 64)
    (h : Ending H config c K ps k x)
    (hl : listing.Perm (ps.map (sealedFile H) ++ [(k, x)])) :
    ∃ ops L y discarded, Repair H config c K ps k x ops L y ∧
      openWithCheckpoint H config c listing =
        .ok (ops ++ syncOps L, reopened H config c discarded L) := by
  cases h with
  | header first hL hf hx =>
    have hfirst : first < 2 ^ 64 := (hL.pieces ⟨k, first, []⟩ (by simp)).next_lt
    obtain ⟨first', hf', heq, hx', hlocate⟩ := locateFirst_start hf hfirst hx
    have hL' : Stored config c K ⟨ps, some ⟨k, first', []⟩⟩ := by
      rcases heq with rfl | rfl
      · exact hL
      · exact hL.rehead hc
    have hlen : x.length ≤ headerBytes := by simpa using hx'.length_le
    have hsize : Piece.bodySize ⟨k, first', []⟩ = headerBytes := rfl
    have hfits := (hL'.pieces ⟨k, first', []⟩ (by simp)).fits
    have hbudget : Layout.sealedSize ⟨ps, some ⟨k, first', []⟩⟩ +
        Piece.bodySize ⟨k, first', []⟩ + reservedSealBytes ≤ config.maxTotalBytes := hL'.budget
    by_cases hshort : x.length < headerBytes
    · have hcut : Cut H config c ps x ⟨k, first', []⟩ := .short rfl hx' hshort hlocate
      have ho := openWithCheckpoint_cut hv hc hL'.toOk hcut (by omega) (by omega) hl
      rw [repairOps, if_pos hshort] at ho
      exact ⟨_, _, _, _, .rewrite hL' hf' hx', ho⟩
    · have hxe : x = segmentHeader H k first' := hx'.eq_of_length (by simp; omega)
      have hcut : Cut H config c ps x ⟨k, first', []⟩ :=
        .torn [] (by rw [body_empty, List.append_nil, hxe]) (.inl rfl)
      have ho := openWithCheckpoint_cut hv hc hL'.toOk hcut (by omega) (by omega) hl
      rw [repairOps, if_neg hshort, if_neg (by omega)] at ho
      refine ⟨_, _, _, _, .none hL' ?_, ho⟩
      rw [settledDir_active rfl, body_empty, hxe]
  | body p hk hL rest hx ht hfit hbudget =>
    subst hk
    have ho := openWithCheckpoint_cut hv hc hL.toOk (.torn rest hx ht) hfit hbudget hl
    have hlen : x.length = p.bodySize + rest.length := by rw [hx]; simp
    have hheader := p.headerBytes_le
    rw [repairOps, if_neg (by omega)] at ho
    by_cases hrest : rest = []
    · rw [if_neg (by simp [hlen, hrest])] at ho
      refine ⟨_, _, _, _, .none hL ?_, ho⟩
      rw [settledDir_active rfl, hx, hrest, List.append_nil]
    · rw [if_pos (by simpa [hlen] using hrest)] at ho
      exact ⟨_, _, _, _, .truncate p rfl hL hx, ho⟩
  | sealed p hk hL hx =>
    subst hk hx
    have hl' : listing.Perm ((ps ++ [p]).map (sealedFile H)) := by simpa [sealedFile] using hl
    refine ⟨[], _, _, 0, .none hL (settledDir_sealed rfl), ?_⟩
    exact openWithCheckpoint_sealed hv hc hL.toOk hl'

-- The two shapes

/-- The records of an operation in flight are there entirely or not at all. -/
def AllOrNone (inflight tail : List Bytes) : Prop := tail = [] ∨ tail = inflight

/-- A last file whose every surviving content can be recovered. -/
structure Tail (H : Digest) (config : JournalConfig) (checkpoint : Nat) (K inflight : List Bytes)
    (ps : List Piece) (k : Nat) (f : File UInt8) : Prop where
  linked : f.linked = true
  current : ∃ tail, AllOrNone inflight tail ∧
    Ending H config checkpoint (K ++ tail) ps k f.content
  survives : ∀ x, f.Survives x → ∃ tail, AllOrNone inflight tail ∧
    Ending H config checkpoint (K ++ tail) ps k x
  lost : f.durable = false → Stored config checkpoint K ⟨ps, none⟩

/-- A directory as an operation cut short may leave it. -/
inductive Interrupted (H : Digest) (config : JournalConfig) (checkpoint : Nat)
    (K inflight : List Bytes) : Directory → Prop where
  | cut (h : Tail H config checkpoint K inflight ps k f) :
      Interrupted H config checkpoint K inflight (entries H ps ++ [(k, f)])
  | kept (ks : List (Piece × Bool)) (o : Option Piece)
      (h : Stored config checkpoint K ⟨ks.map Prod.fst, o⟩) (hr : Retired checkpoint ks o) :
      Interrupted H config checkpoint K inflight
        (ks.map (sealedEntry H) ++ o.toList.map (activeEntry H))

theorem retired_linked {ps : List Piece} {o : Option Piece} :
    Retired c (ps.map fun p => (p, true)) o := by
  refine ⟨?_, ?_⟩ <;>
  · intro k hk hlinked
    obtain ⟨p, -, rfl⟩ := List.mem_map.mp hk
    cases hlinked

theorem Stored.interrupted (h : Stored config c K L) :
    Interrupted H config c K g (settledDir H L) := by
  have hmap : (L.sealed.map fun p => (p, true)).map Prod.fst = L.sealed := by
    rw [List.map_map]
    exact List.map_id _
  have hL : Stored config c K ⟨(L.sealed.map fun p => (p, true)).map Prod.fst, L.active⟩ := by
    rw [hmap]
    exact h
  rw [settledDir, entries, show (fun p => sealedEntry H (p, true)) =
    sealedEntry H ∘ fun p => (p, true)
    from rfl, ← List.map_map]
  exact .kept _ _ hL retired_linked

namespace Tail

variable {f : File UInt8} (h : Tail H config c K g ps k f)
include h

theorem fresh : ∀ e ∈ entries H ps, e.1 ≠ k := by
  intro e he
  obtain ⟨p, hp, rfl⟩ := List.mem_map.mp he
  obtain ⟨tail, -, hend⟩ := h.current
  exact hend.fresh p hp

theorem crash (hx : f.Survives x) :
    Tail H config c K g ps k { f with content := x, older := [], linked := true } where
  linked := rfl
  current := h.survives x hx
  survives := fun _ hy => h.survives _ (hx.trans hy)
  lost := h.lost

theorem sync : Tail H config c K g ps k f.sync where
  linked := h.linked
  current := h.current
  survives := by
    rintro x ⟨hs, image, hi, hx⟩
    obtain rfl := List.mem_singleton.mp hi
    rw [hx.eq_of_length_le hs.length_le]
    exact h.current
  lost := h.lost

theorem syncDir : Tail H config c K g ps k { f with durable := true } where
  linked := h.linked
  current := h.current
  survives := h.survives
  lost := by simp

theorem truncate (hr : Ending H config c (K ++ tail) ps k (f.content.take n))
    (ht : AllOrNone g tail) : Tail H config c K g ps k (f.truncate n) where
  linked := h.linked
  current := ⟨tail, ht, hr⟩
  survives := fun _ hx => h.survives _ hx.of_truncate
  lost := h.lost

theorem rewrite (hL : Stored config c (K ++ tail) ⟨ps, some ⟨k, first, []⟩⟩)
    (ht : AllOrNone g tail) (hf : first = contiguous c ps k ∨ first = c + 1)
    (hx : f.content <+: segmentHeader H k first) :
    Tail H config c K g ps k (f.rewrite (segmentHeader H k first)) where
  linked := h.linked
  current := by
    rw [Disk.File.content_rewrite hx]
    exact ⟨tail, ht, .header first hL hf List.prefix_rfl⟩
  survives := by
    intro x hsurv
    rcases hsurv.of_rewrite hx with hsurv | ⟨-, hx⟩
    · exact h.survives x hsurv
    · exact ⟨tail, ht, .header first hL hf hx⟩
  lost := h.lost

end Tail

variable {ks : List (Piece × Bool)} {o : Option Piece}

theorem crash_sealedEntry (h : Disk.Crash (ks.map (sealedEntry H)) d') :
    ∃ ks' : List (Piece × Bool), d' = ks'.map (sealedEntry H) ∧ ks'.map Prod.fst = ks.map Prod.fst ∧
      ∀ k ∈ ks', k.2 = false → k ∈ ks := by
  induction ks generalizing d' with
  | nil =>
    cases h
    exact ⟨[], rfl, rfl, by simp⟩
  | cons k ks ih =>
    obtain ⟨p, linked⟩ := k
    cases h with
    | keep hf h =>
      obtain ⟨ks', rfl, hfst, hk⟩ := ih h
      cases hf with
      | kept _ hd =>
        obtain rfl := Disk.File.survives_settled.mp hd
        refine ⟨(p, true) :: ks', rfl, by simp [hfst], ?_⟩
        intro k hmem hlinked
        rcases List.mem_cons.mp hmem with rfl | hmem
        · cases hlinked
        · exact List.mem_cons_of_mem _ (hk k hmem hlinked)
      | removed hl _ =>
        refine ⟨(p, linked) :: ks', rfl, by simp [hfst], ?_⟩
        intro k hmem hlinked
        rcases List.mem_cons.mp hmem with rfl | hmem
        · exact List.mem_cons_self
        · exact List.mem_cons_of_mem _ (hk k hmem hlinked)
    | lose hf _ =>
      cases hf with
      | lost hd => cases hd

theorem settled_entries : ∀ e ∈ entries H ps, e.2 = .settled e.2.content := by
  intro e he
  obtain ⟨p, -, rfl⟩ := List.mem_map.mp he
  rfl

theorem Interrupted.crash (h : Interrupted H config c K g d) (hd : Disk.Crash d d') :
    Interrupted H config c K g d' := by
  cases h with
  | cut h =>
    obtain ⟨a, b, rfl, ha, hb⟩ := hd.append_inv
    rw [ha.eq_of_settled settled_entries]
    cases hb with
    | keep hf hnil =>
      cases hnil
      cases hf with
      | kept _ hx => exact .cut (h.crash hx)
      | removed hl => exact absurd h.linked (by simp [hl])
    | lose hf hnil =>
      cases hnil
      cases hf with
      | lost hdur =>
        have := (h.lost hdur).interrupted (H := H) (g := g)
        simpa [settledDir] using this
  | kept ks o h hr =>
    obtain ⟨a, b, rfl, ha, hb⟩ := hd.append_inv
    obtain ⟨ks', rfl, hfst, hk⟩ := crash_sealedEntry ha
    have hb : b = o.toList.map (activeEntry H) := by
      refine hb.eq_of_settled ?_
      intro e he
      obtain ⟨p, -, rfl⟩ := List.mem_map.mp he
      rfl
    rw [hb]
    have hlen : ks'.length = ks.length := by simpa using congrArg List.length hfst
    refine .kept ks' o (hfst ▸ h) ⟨?_, ?_⟩
    · exact fun k hmem hlinked => hr.covered k (hk k hmem hlinked) hlinked
    · exact fun k hmem hlinked => hlen ▸ hr.authority k (hk k hmem hlinked) hlinked

-- Reopening

theorem syncOps_eq : syncOps L = (settledDir H L).map (fun e => .sync e.1) ++ [.syncDir] := by
  simp only [syncOps, Layout.segments, settledDir, entries, List.map_append, List.map_map]
  rfl

theorem syncDir_sealed :
    apply (ks.map (sealedEntry H)) .syncDir = entries H (visible ks) := by
  induction ks with
  | nil => rfl
  | cons k ks ih =>
    obtain ⟨p, linked⟩ := k
    cases linked with
    | true => exact congrArg (sealedEntry H (p, true) :: ·) ih
    | false => exact ih

theorem syncDir_append {d e : Directory} :
    apply (d ++ e) .syncDir = apply d .syncDir ++ apply e .syncDir := by
  simp only [apply, List.filter_append, List.map_append]

theorem syncDir_entries {f : File UInt8} (hf : f.linked = true) :
    apply (entries H ps ++ [(k, f)]) .syncDir =
      entries H ps ++ [(k, { f with durable := true })] := by
  have hps : apply (entries H ps) .syncDir = entries H ps := by
    have hsync : apply ((ps.map (·, true)).map (sealedEntry H)) .syncDir = _ := syncDir_sealed
    have hvisible : visible (ps.map (·, true)) = ps := visible_map_linked
    rw [hvisible, List.map_map] at hsync
    exact hsync
  rw [syncDir_append, hps]
  simp [apply, hf]

theorem syncDir_kept :
    apply (ks.map (sealedEntry H) ++ o.toList.map (activeEntry H)) .syncDir =
      settledDir H ⟨visible ks, o⟩ := by
  rw [syncDir_append, syncDir_sealed]
  cases o <;> rfl

theorem sync_kept :
    apply (ks.map (sealedEntry H) ++ o.toList.map (activeEntry H)) (.sync k) =
      ks.map (sealedEntry H) ++ o.toList.map (activeEntry H) := by
  refine Disk.modify_eq_self fun e he _ => ?_
  rcases List.mem_append.mp he with he | he <;> obtain ⟨_, -, rfl⟩ := List.mem_map.mp he <;> rfl

namespace Tail

variable {f : File UInt8}

theorem through_sync (h : Tail H config c K g ps k f) :
    Through (Interrupted H config c K g) (entries H ps ++ [(k, f)]) (syncOps L) := by
  let Q (d : Directory) := ∃ f, d = entries H ps ++ [(k, f)] ∧ Tail H config c K g ps k f
  have hq : Through Q (entries H ps ++ [(k, f)]) (syncOps L) := by
    refine Disk.through_of_step ⟨f, rfl, h⟩ ?_
    rintro _ ⟨f, rfl, h⟩ op hop
    rcases List.mem_append.mp hop with hop | hop
    · obtain ⟨s, -, rfl⟩ := List.mem_map.mp hop
      have hps : Disk.modify (entries H ps) s.id File.sync = entries H ps := by
        refine Disk.modify_eq_self fun e he _ => ?_
        rw [settled_entries e he]
        rfl
      refine ⟨if k = s.id then f.sync else f, ?_, ?_⟩
      · rw [apply, Disk.modify_append, hps]
        by_cases hk : k = s.id <;> simp [Disk.modify, hk]
      · split
        · exact h.sync
        · exact h
    · rw [List.mem_singleton.mp hop, syncDir_entries h.linked]
      exact ⟨_, rfl, h.syncDir⟩
  refine hq.mono ?_
  rintro _ ⟨f, rfl, h⟩
  exact .cut h

theorem run_sync (h : Tail H config c K g ps k f)
    (hL : settledDir H L = entries H ps ++ [(k, .settled f.content)]) :
    run (entries H ps ++ [(k, f)]) (syncOps L) = settledDir H L := by
  have hps : run (entries H ps ++ [(k, f)]) ((entries H ps).map fun e => .sync e.1) =
      entries H ps ++ [(k, f)] := by
    refine Disk.run_eq_self fun op hop => ?_
    obtain ⟨e, he, rfl⟩ := List.mem_map.mp hop
    refine Disk.modify_eq_self fun e' he' hk => ?_
    rcases List.mem_append.mp he' with he' | he'
    · rw [settled_entries e' he']
      rfl
    · rw [List.mem_singleton.mp he'] at hk
      exact absurd hk.symm (h.fresh e he)
  have hsync : apply (entries H ps ++ [(k, f)]) (.sync k) = entries H ps ++ [(k, f.sync)] :=
    Disk.modify_concat h.fresh _
  have hdir : apply (entries H ps ++ [(k, f.sync)]) .syncDir =
      entries H ps ++ [(k, .settled f.content)] := by
    rw [syncDir_entries (f := f.sync) h.linked]
    simp [File.sync, File.settled, h.linked]
  rw [syncOps_eq (H := H), hL, List.map_append, Disk.run_append, Disk.run_append, hps]
  show apply (apply (entries H ps ++ [(k, f)]) (.sync k)) .syncDir = _
  rw [hsync, hdir]

theorem repair (h : Tail H config c K g ps k f) (ht : AllOrNone g tail)
    (hr : Repair H config c (K ++ tail) ps k f.content ops L y) :
    ∃ f', run (entries H ps ++ [(k, f)]) ops = entries H ps ++ [(k, f')] ∧
      Tail H config c K g ps k f' ∧ f'.content = y ∧
      Through (Interrupted H config c K g) (entries H ps ++ [(k, f)]) ops := by
  have hone {op : Io} {f' : File UInt8}
      (hop : apply (entries H ps ++ [(k, f)]) op = entries H ps ++ [(k, f')])
      (hf' : Tail H config c K g ps k f') :
      Through (Interrupted H config c K g) (entries H ps ++ [(k, f)]) [op] := by
    refine Disk.through_cons.mpr ⟨.cut h, Disk.through_nil.mpr ?_⟩
    rw [hop]
    exact .cut hf'
  cases hr with
  | none => exact ⟨f, rfl, h, rfl, Disk.through_nil.mpr (.cut h)⟩
  | truncate p hk hL hx =>
    have hop : apply (entries H ps ++ [(k, f)]) (.truncate k p.bodySize) =
        entries H ps ++ [(k, f.truncate p.bodySize)] :=
      Disk.modify_concat h.fresh fun f => f.truncate p.bodySize
    have hcontent : f.content.take p.bodySize = p.body H := by
      rw [hx, List.take_left' Piece.length_body]
    have hf' := h.truncate (hcontent.symm ▸ hk ▸ hL.ending) ht
    exact ⟨_, hop, hf', hcontent, hone hop hf'⟩
  | @rewrite first hL hf hx =>
    have hop : apply (entries H ps ++ [(k, f)]) (.rewrite k (segmentHeader H k first)) =
        entries H ps ++ [(k, f.rewrite (segmentHeader H k first))] :=
      Disk.modify_concat h.fresh fun f => f.rewrite (segmentHeader H k first)
    have hf' := h.rewrite hL ht hf hx
    exact ⟨_, hop, hf', Disk.File.content_rewrite hx, hone hop hf'⟩

end Tail

theorem Stored.opens (hv : config.validate = .ok ()) (hc : c + 1 < 2 ^ 64)
    (h : Stored config c K L) (hl : listing.Perm (L.files H)) :
    openWithCheckpoint H config c listing = .ok (syncOps L, reopened H config c 0 L) := by
  obtain ⟨ps, o⟩ := L
  cases o with
  | none => exact openWithCheckpoint_sealed hv hc h.toOk (by simpa [Layout.files] using hl)
  | some p =>
    have hfits := (stored_active.mp h).2.piece.fits
    have hbudget : Layout.sealedSize ⟨ps, some p⟩ + p.bodySize + reservedSealBytes ≤
        config.maxTotalBytes := h.budget
    have hheader := p.headerBytes_le
    have ho := openWithCheckpoint_cut hv hc h.toOk
      (.torn [] (List.append_nil _).symm (.inl rfl)) (by rw [Piece.length_body]; omega)
      (by rw [Piece.length_body]; omega) hl
    have hnone : repairOps H (p.body H) p = [] := by
      rw [repairOps, if_neg (by rw [Piece.length_body]; omega), if_neg (by simp)]
    rw [hnone, Piece.length_body, Nat.sub_self] at ho
    exact ho

theorem through_syncOps {P : Directory → Prop}
    (hd : P (ks.map (sealedEntry H) ++ o.toList.map (activeEntry H)))
    (hs : P (settledDir H ⟨visible ks, o⟩)) :
    Through P (ks.map (sealedEntry H) ++ o.toList.map (activeEntry H))
        (syncOps ⟨visible ks, o⟩) ∧
      run (ks.map (sealedEntry H) ++ o.toList.map (activeEntry H)) (syncOps ⟨visible ks, o⟩) =
        settledDir H ⟨visible ks, o⟩ := by
  have hsync (op : Io) (hop : op ∈ (Layout.segments ⟨visible ks, o⟩).map fun s => .sync s.id) :
      apply (ks.map (sealedEntry H) ++ o.toList.map (activeEntry H)) op =
        ks.map (sealedEntry H) ++ o.toList.map (activeEntry H) := by
    obtain ⟨s, -, rfl⟩ := List.mem_map.mp hop
    exact sync_kept
  have hrun := Disk.run_eq_self hsync
  refine ⟨(Disk.through_of_fixed hd hsync).append ?_, ?_⟩
  · rw [hrun]
    refine Disk.through_cons.mpr ⟨hd, Disk.through_nil.mpr ?_⟩
    rw [syncDir_kept]
    exact hs
  · rw [syncOps, Disk.run_append, hrun]
    exact syncDir_kept

/-- An interrupted directory opens, with all or none of what was in flight; the
directory is settled once the repair is through, and interrupted until then. -/
theorem Interrupted.opens (hv : config.validate = .ok ()) (hc : c + 1 < 2 ^ 64)
    (h : Interrupted H config c K g d) (hl : listing.Perm (view d)) :
    ∃ tail ops L discarded, AllOrNone g tail ∧ Stored config c (K ++ tail) L ∧
      openWithCheckpoint H config c listing = .ok (ops, reopened H config c discarded L) ∧
      Through (Interrupted H config c K g) d ops ∧ run d ops = settledDir H L := by
  cases h with
  | cut h =>
    rw [view_entries h.linked] at hl
    obtain ⟨tail, ht, hend⟩ := h.current
    obtain ⟨ops, L, y, discarded, hrepair, ho⟩ := hend.opens hv hc hl
    obtain ⟨f', hrun, hf', hy, hthrough⟩ := h.repair ht hrepair
    refine ⟨tail, _, L, discarded, ht, hrepair.stored, ho, ?_, ?_⟩
    · exact hthrough.append (hrun ▸ hf'.through_sync)
    · rw [Disk.run_append, hrun, hf'.run_sync]
      rw [hy]
      exact hrepair.settledDir_eq
  | kept ks o h hr =>
    rw [view_kept] at hl
    have hL := h.visible hr
    have ho := hL.opens hv hc hl
    obtain ⟨hthrough, hrun⟩ := through_syncOps (H := H) (.kept ks o h hr) hL.interrupted
    exact ⟨[], _, _, 0, .inl rfl, (List.append_nil K).symm ▸ hL, ho, hthrough, hrun⟩

/-- Sealed segments of the empty log, of which any may be missing. Not every such
directory opens. -/
def Emptied (H : Digest) (config : JournalConfig) (d : Directory) : Prop :=
  ∃ ks : List (Piece × Bool), d = ks.map (sealedEntry H) ∧
    Stored config 0 [] ⟨ks.map Prod.fst, none⟩

theorem emptied_settled (h : Stored config 0 [] ⟨ps, none⟩) :
    Emptied H config (settledDir H ⟨ps, none⟩) := by
  refine ⟨ps.map (·, true), ?_, ?_⟩
  · rw [settledDir, List.map_map]
    exact List.append_nil _
  · rw [List.map_map]
    exact (List.map_id ps).symm ▸ h

theorem Emptied.crash (h : Emptied H config d) (hd : Disk.Crash d d') : Emptied H config d' := by
  obtain ⟨ks, rfl, hs⟩ := h
  obtain ⟨ks', rfl, hfst, -⟩ := crash_sealedEntry hd
  exact ⟨ks', rfl, hfst ▸ hs⟩

theorem Emptied.opens (hv : config.validate = .ok ()) (h : Emptied H config d)
    (hl : listing.Perm (view d)) (ho : openWithCheckpoint H config 0 listing = .ok (ops, j)) :
    ∃ L, Stored config 0 [] L ∧ j = reopened H config 0 0 L ∧
      Through (Emptied H config) d ops ∧ run d ops = settledDir H L := by
  obtain ⟨ks, rfl, hs⟩ := h
  have hview : view (ks.map (sealedEntry H)) = (visible ks).map (sealedFile H) := by
    have hkept : view (ks.map (sealedEntry H) ++ (none : Option Piece).toList.map (activeEntry H)) =
        _ := view_kept
    simpa [Layout.files] using hkept
  rw [hview] at hl
  have hsub : (visible ks).Sublist (ks.map Prod.fst) := visible_sublist
  have hpieces : ∀ p ∈ visible ks, p.Ok config :=
    fun p hp => hs.prior.pieces p (hsub.subset hp)
  have hsorted : ((visible ks).map (sealedFile H)).Pairwise fun a b => a.1 < b.1 :=
    List.pairwise_map.mpr (hs.prior.sorted.sublist hsub)
  obtain ⟨recovered, hrec⟩ := recoverSegments_of_open ho hl hsorted
  have hchain := chain_of_recoverSegments (JournalConfig.valid hv) hpieces (fun _ => rfl) hrec
  have hL : Stored config 0 [] ⟨visible ks, none⟩ := by
    refine hs.of_visible (fun k hk _ => ?_) (by simpa using hchain)
    have hnext := hs.prior.chain.next_le_endNext (List.mem_map_of_mem hk)
    have hreach : max (endNext 1 (ks.map Prod.fst)) 1 = 1 := by simpa [Layout.next] using hs.reach
    omega
  have ho' := hL.opens hv (by decide) (by simpa [Layout.files] using hl)
  obtain ⟨rfl, rfl⟩ := Prod.mk.inj (Except.ok.inj (ho.symm.trans ho'))
  have hdir : Emptied H config (ks.map (sealedEntry H) ++
      (none : Option Piece).toList.map (activeEntry H)) := ⟨ks, by simp, hs⟩
  have hthrough := through_syncOps hdir (emptied_settled hL)
  simp only [Option.toList_none, List.map_nil, List.append_nil] at hthrough
  exact ⟨_, hL, rfl, hthrough.1, hthrough.2⟩

end Varve.Journal
