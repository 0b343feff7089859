import Varve.Engine.Catalog

/-!
# Partitioned segments

`write_partitioned_rows`: rows go to partitions by shard and time window, are sorted there and cut
into segments.
-/

namespace Varve.Engine

open Journal (Digest)

variable {F : Type} {config : TableConfig}

/-- Tenant, series, timestamp, sequence and ordinal, compared in turn. -/
def StoredRow.key (r : StoredRow F) : Text ×ₗ Text ×ₗ Int ×ₗ Nat ×ₗ Nat :=
  toLex (r.row.tenant, toLex (r.row.series, toLex (r.row.timestampUs,
    toLex (r.sequence, r.ordinal))))

def rowLe (a b : StoredRow F) : Prop := a.key ≤ b.key

instance (a b : StoredRow F) : Decidable (rowLe a b) :=
  inferInstanceAs (Decidable (a.key ≤ b.key))

instance : Std.Total (rowLe (F := F)) := ⟨fun a b => le_total a.key b.key⟩

instance : IsTrans (StoredRow F) rowLe := ⟨fun _ _ _ => le_trans⟩

def sortRows (rows : List (StoredRow F)) : List (StoredRow F) := rows.insertionSort rowLe

theorem sortRows_perm (rows : List (StoredRow F)) : (sortRows rows).Perm rows :=
  List.perm_insertionSort _ _

theorem pairwise_sortRows (rows : List (StoredRow F)) : (sortRows rows).Pairwise rowLe :=
  List.pairwise_insertionSort _ _

-- Partitions and chunks

abbrev PartitionKey := Nat × Int

abbrev Partitions (F : Type) := List (PartitionKey × List (StoredRow F))

/-- A row enters the partition of its key, in key order. -/
def insertPartition (key : PartitionKey) (row : StoredRow F) : Partitions F → Partitions F
  | [] => [(key, [row])]
  | (k, rows) :: rest =>
    if key = k then (k, rows ++ [row]) :: rest
    else if toLex key < toLex k then (key, [row]) :: (k, rows) :: rest
    else (k, rows) :: insertPartition key row rest

def partitionKey (config : TableConfig) (r : StoredRow F) : Except String PartitionKey := do
  let window ← windowStart r.row.timestampUs config.windowUs
  .ok (shardFor r.row.tenant r.row.series config.shards, window)

def partitionRow (config : TableConfig) (partitions : Partitions F) (r : StoredRow F) :
    Except String (Partitions F) := do
  .ok (insertPartition (← partitionKey config r) r partitions)

def chunks (n : Nat) (l : List α) : List (List α) :=
  if n = 0 ∨ l = [] then [] else l.take n :: chunks n (l.drop n)
termination_by l.length
decreasing_by
  rename_i h
  have := List.length_pos_iff.mpr fun hl => h (.inr hl)
  rw [List.length_drop]
  omega

/-- The partitions hold the rows, each under its key. -/
structure Partitioned (config : TableConfig) (rows : List (StoredRow F)) (ps : Partitions F) :
    Prop where
  perm : (ps.flatMap Prod.snd).Perm rows
  keys : ∀ p ∈ ps, ∀ r ∈ p.2, partitionKey config r = .ok p.1

theorem insertPartition_perm (key : PartitionKey) (row : StoredRow F) (ps : Partitions F) :
    ((insertPartition key row ps).flatMap Prod.snd).Perm (ps.flatMap Prod.snd ++ [row]) := by
  induction ps with
  | nil => simp [insertPartition]
  | cons p ps ih =>
    obtain ⟨k, rows⟩ := p
    simp only [insertPartition]
    split_ifs
    · simp only [List.flatMap_cons, List.append_assoc]
      exact List.Perm.append_left _ List.perm_append_comm
    · simp only [List.flatMap_cons]
      exact List.perm_append_comm
    · simp only [List.flatMap_cons, List.append_assoc]
      exact ih.append_left _

theorem insertPartition_keys {key : PartitionKey} {row : StoredRow F}
    {ps : Partitions F} (hk : partitionKey config row = .ok key)
    (h : ∀ p ∈ ps, ∀ r ∈ p.2, partitionKey config r = .ok p.1) :
    ∀ p ∈ insertPartition key row ps, ∀ r ∈ p.2, partitionKey config r = .ok p.1 := by
  induction ps with
  | nil => simpa [insertPartition] using hk
  | cons q ps ih =>
    obtain ⟨k, rows⟩ := q
    obtain ⟨hq, hps⟩ := List.forall_mem_cons.mp h
    simp only [insertPartition]
    split_ifs with he
    · subst he
      refine List.forall_mem_cons.mpr ⟨?_, hps⟩
      intro r hr
      rcases List.mem_append.mp hr with hr | hr
      · exact hq r hr
      · rw [List.mem_singleton.mp hr]
        exact hk
    · refine List.forall_mem_cons.mpr ⟨?_, h⟩
      intro r hr
      rw [List.mem_singleton.mp hr]
      exact hk
    · exact List.forall_mem_cons.mpr ⟨hq, ih hps⟩

theorem Partitioned.row {rows : List (StoredRow F)} {ps ps' : Partitions F}
    {r : StoredRow F} (h : Partitioned config rows ps) (hs : partitionRow config ps r = .ok ps') :
    Partitioned config (rows ++ [r]) ps' := by
  obtain ⟨key, hk, hs⟩ := Result.bind_ok.mp hs
  cases hs
  exact ⟨(insertPartition_perm key r ps).trans (h.perm.append_right _),
    insertPartition_keys hk h.keys⟩

theorem partitioned_foldlM {rows d : List (StoredRow F)}
    {ps ps' : Partitions F} (h : Partitioned config d ps)
    (hs : rows.foldlM (partitionRow config) ps = .ok ps') : Partitioned config (d ++ rows) ps' := by
  induction rows generalizing d ps with
  | nil =>
    cases hs
    rwa [List.append_nil]
  | cons r rows ih =>
    obtain ⟨mid, hm, hs⟩ := Result.bind_ok.mp hs
    have := ih (h.row hm) hs
    rwa [List.append_assoc] at this

theorem flatten_chunks {n : Nat} (hn : 0 < n) (l : List α) : (chunks n l).flatten = l := by
  fun_induction chunks n l with
  | case1 l h =>
    rcases h with h | h
    · omega
    · rw [h, List.flatten_nil]
  | case2 l h ih => rw [List.flatten_cons, ih, List.take_append_drop]

theorem mem_chunks {n : Nat} {l c : List α} (h : c ∈ chunks n l) : c ≠ [] ∧ c.length ≤ n := by
  fun_induction chunks n l with
  | case1 => cases h
  | case2 l hne ih =>
    rcases List.mem_cons.mp h with rfl | h
    · refine ⟨fun hc => hne ?_, List.length_take_le _ _⟩
      rcases List.take_eq_nil_iff.mp hc with h0 | h0
      · exact .inl h0
      · exact .inr h0
    · exact ih h

theorem length_chunks {n : Nat} (hn : 0 < n) (l : List α) :
    (chunks n l).length = (l.length + n - 1) / n := by
  fun_induction chunks n l with
  | case1 l h =>
    rcases h with h | h
    · omega
    · subst h
      rw [List.length_nil, List.length_nil, Nat.zero_add, Nat.div_eq_of_lt (by omega)]
  | case2 l h ih =>
    have hpos := List.length_pos_iff.mpr fun hl => h (.inr hl)
    rw [List.length_cons, ih, List.length_drop, ← Nat.add_div_right _ hn]
    by_cases hle : n ≤ l.length
    · congr 1
      omega
    · rw [show l.length - n = 0 by omega, show (0 + n - 1 + n) / n = 1 from
        Nat.div_eq_of_lt_le (by omega) (by omega)]
      exact (Nat.div_eq_of_lt_le (by omega) (by omega)).symm

-- Written segments

structure Written (F : Type) where
  descriptor : Segment
  bytes : Bytes
  rows : List (StoredRow F)

/-- How a file is encoded, and the hash that names it. A file is read as it was written. -/
structure Codec (F : Type) where
  encode : List (StoredRow F) → Except String Bytes
  decode : Bytes → Except String (List (StoredRow F))
  digest : Digest
  decode_encode : ∀ rows bytes, encode rows = .ok bytes → decode bytes = .ok rows

def describe (codec : Codec F) (key : PartitionKey) (chunk : List (StoredRow F)) :
    Except String (Written F) := do
  let bytes ← codec.encode chunk
  let timestamps := chunk.map fun r => r.row.timestampUs
  .ok
    { descriptor :=
        { id := Text.toHex (codec.digest.hash bytes)
          shard := key.1
          windowUs := key.2
          rows := chunk.length
          minTimestampUs := timestamps.min?.getD 0
          maxTimestampUs := timestamps.max?.getD 0
          bytes := bytes.length
          decodedBytes := (chunk.map fun r => r.row.estimatedBytes).sum }
      bytes := bytes
      rows := chunk }

def writePartition (codec : Codec F) (segmentRows : Nat) (p : PartitionKey × List (StoredRow F)) :
    Except String (List (Written F)) :=
  (chunks segmentRows (sortRows p.2)).mapM (describe codec p.1)

def writePartitionedRows (codec : Codec F) (segmentRows : Nat) (config : TableConfig)
    (rows : List (StoredRow F)) : Except String (List (Written F)) := do
  let partitions ← rows.foldlM (partitionRow config) []
  let written ← partitions.mapM (writePartition codec segmentRows)
  .ok written.flatten

/-- What the descriptor of a segment says of its rows. -/
structure Describes (config : TableConfig) (seg : Segment) (rows : List (StoredRow F)) : Prop where
  count : seg.rows = rows.length
  nonempty : rows ≠ []
  decoded : seg.decodedBytes = (rows.map fun r => r.row.estimatedBytes).sum
  keys : ∀ r ∈ rows, partitionKey config r = .ok (seg.shard, seg.windowUs)
  min : ∀ r ∈ rows, seg.minTimestampUs ≤ r.row.timestampUs
  min_mem : ∃ r ∈ rows, r.row.timestampUs = seg.minTimestampUs
  max : ∀ r ∈ rows, r.row.timestampUs ≤ seg.maxTimestampUs
  max_mem : ∃ r ∈ rows, r.row.timestampUs = seg.maxTimestampUs

theorem partitionKey_ok {r : StoredRow F} {key : PartitionKey}
    (h : partitionKey config r = .ok key) :
    shardFor r.row.tenant r.row.series config.shards = key.1 ∧
      windowStart r.row.timestampUs config.windowUs = .ok key.2 := by
  obtain ⟨window, hw, h⟩ := Result.bind_ok.mp h
  cases h
  exact ⟨rfl, hw⟩

theorem Describes.shard {seg : Segment} {rows : List (StoredRow F)}
    (h : Describes config seg rows) {r : StoredRow F} (hr : r ∈ rows) :
    shardFor r.row.tenant r.row.series config.shards = seg.shard :=
  (partitionKey_ok (h.keys r hr)).1

/-- The rows of a written file are described, and are what it decodes to. -/
structure Sound (codec : Codec F) (config : TableConfig) (w : Written F) : Prop where
  describes : Describes config w.descriptor w.rows
  decodes : codec.decode w.bytes = .ok w.rows

theorem describe_ok {codec : Codec F} {key : PartitionKey}
    {chunk : List (StoredRow F)} {w : Written F} (h : describe codec key chunk = .ok w)
    (hne : chunk ≠ []) (hk : ∀ r ∈ chunk, partitionKey config r = .ok key) :
    w.rows = chunk ∧ (w.descriptor.shard, w.descriptor.windowUs) = key ∧ Sound codec config w := by
  obtain ⟨bytes, hb, h⟩ := Result.bind_ok.mp h
  cases h
  have hts : chunk.map (fun r => r.row.timestampUs) ≠ [] := by simpa using hne
  obtain ⟨low, hlow⟩ := Option.isSome_iff_exists.mp (List.isSome_min?_iff.mpr hts)
  obtain ⟨high, hhigh⟩ := Option.isSome_iff_exists.mp (List.isSome_max?_iff.mpr hts)
  obtain ⟨hlm, hll⟩ := List.min?_eq_some_iff.mp hlow
  obtain ⟨hhm, hhl⟩ := List.max?_eq_some_iff.mp hhigh
  refine ⟨rfl, rfl, ⟨rfl, hne, rfl, hk, ?_, ?_, ?_, ?_⟩, codec.decode_encode _ _ hb⟩
  · intro r hr
    simpa [hlow] using hll _ (List.mem_map_of_mem hr)
  · simpa [hlow] using List.mem_map.mp hlm
  · intro r hr
    simpa [hhigh] using hhl _ (List.mem_map_of_mem hr)
  · simpa [hhigh] using List.mem_map.mp hhm

theorem mapM_ok {ε : Type} {α β : Type} {f : α → Except ε β} {l : List α} {ys : List β}
    (h : l.mapM f = .ok ys) : List.Forall₂ (fun a b => f a = .ok b) l ys := by
  induction l generalizing ys with
  | nil =>
    cases h
    exact .nil
  | cons a l ih =>
    rw [List.mapM_cons] at h
    obtain ⟨b, hb, h⟩ := Result.bind_ok.mp h
    obtain ⟨bs, hbs, h⟩ := Result.bind_ok.mp h
    cases h
    exact .cons hb (ih hbs)

structure WrittenAs (codec : Codec F) (config : TableConfig) (segmentRows : Nat)
    (key : PartitionKey)
    (rows : List (StoredRow F)) (ws : List (Written F)) : Prop where
  perm : (ws.flatMap Written.rows).Perm rows
  length : ws.length = (rows.length + segmentRows - 1) / segmentRows
  sound : ∀ w ∈ ws, Sound codec config w
  key : ∀ w ∈ ws, (w.descriptor.shard, w.descriptor.windowUs) = key

theorem describe_all {codec : Codec F} {key : PartitionKey}
    {cs : List (List (StoredRow F))} {ws : List (Written F)}
    (h : List.Forall₂ (fun c w => describe codec key c = .ok w) cs ws)
    (hc : ∀ c ∈ cs, c ≠ [] ∧ ∀ r ∈ c, partitionKey config r = .ok key) :
    ws.map Written.rows = cs ∧ ∀ w ∈ ws, Sound codec config w ∧
      (w.descriptor.shard, w.descriptor.windowUs) = key := by
  induction h with
  | nil => simp
  | cons hd _ ih =>
    obtain ⟨hc, hrest⟩ := List.forall_mem_cons.mp hc
    obtain ⟨hw, hkey, hdesc⟩ := describe_ok hd hc.1 hc.2
    obtain ⟨hm, hws⟩ := ih hrest
    exact ⟨by rw [List.map_cons, hw, hm], List.forall_mem_cons.mpr ⟨⟨hdesc, hkey⟩, hws⟩⟩

theorem writePartition_ok {codec : Codec F} {segmentRows : Nat}
    {p : PartitionKey × List (StoredRow F)} {ws : List (Written F)} (hn : 0 < segmentRows)
    (h : writePartition codec segmentRows p = .ok ws)
    (hk : ∀ r ∈ p.2, partitionKey config r = .ok p.1) :
    WrittenAs codec config segmentRows p.1 p.2 ws := by
  have hall := mapM_ok h
  have hmem : ∀ c ∈ chunks segmentRows (sortRows p.2), c ≠ [] ∧
      ∀ r ∈ c, partitionKey config r = .ok p.1 := by
    intro c hc
    refine ⟨(mem_chunks hc).1, fun r hr => hk r ?_⟩
    have : r ∈ (chunks segmentRows (sortRows p.2)).flatten := List.mem_flatten.mpr ⟨c, hc, hr⟩
    rw [flatten_chunks hn] at this
    exact (sortRows_perm p.2).subset this
  obtain ⟨hrows, hws⟩ := describe_all hall hmem
  refine ⟨?_, ?_, fun w hw => (hws w hw).1, fun w hw => (hws w hw).2⟩
  · rw [List.flatMap_def, hrows, flatten_chunks hn]
    exact sortRows_perm p.2
  · rw [← hall.length_eq, length_chunks hn, (sortRows_perm p.2).length_eq]

theorem writePartitions_all {codec : Codec F} {segmentRows : Nat}
    {ps : Partitions F} {parts : List (List (Written F))} (hn : 0 < segmentRows)
    (h : List.Forall₂ (fun p ws => writePartition codec segmentRows p = .ok ws) ps parts)
    (hk : ∀ p ∈ ps, ∀ r ∈ p.2, partitionKey config r = .ok p.1) :
    (parts.flatten.flatMap Written.rows).Perm (ps.flatMap Prod.snd) ∧
      ∀ w ∈ parts.flatten, Sound codec config w := by
  induction h with
  | nil => simp
  | cons hd _ ih =>
    obtain ⟨hc, hrest⟩ := List.forall_mem_cons.mp hk
    have hw := writePartition_ok hn hd hc
    obtain ⟨hperm, hdesc⟩ := ih hrest
    refine ⟨?_, ?_⟩
    · simp only [List.flatten_cons, List.flatMap_append, List.flatMap_cons]
      exact hw.perm.append hperm
    · intro w hmem
      rcases List.mem_append.mp (List.flatten_cons ▸ hmem) with hmem | hmem
      · exact hw.sound w hmem
      · exact hdesc w hmem

theorem writePartitionedRows_ok {codec : Codec F} {segmentRows : Nat}
    {rows : List (StoredRow F)} {ws : List (Written F)} (hn : 0 < segmentRows)
    (h : writePartitionedRows codec segmentRows config rows = .ok ws) :
    (ws.flatMap Written.rows).Perm rows ∧ ∀ w ∈ ws, Sound codec config w := by
  obtain ⟨ps, hps, h⟩ := Result.bind_ok.mp h
  obtain ⟨parts, hparts, h⟩ := Result.bind_ok.mp h
  cases h
  have hp : Partitioned config rows ps := partitioned_foldlM (d := []) ⟨.refl _, by simp⟩ hps
  obtain ⟨hperm, hdesc⟩ := writePartitions_all hn (mapM_ok hparts) hp.keys
  exact ⟨hperm.trans hp.perm, hdesc⟩

end Varve.Engine
