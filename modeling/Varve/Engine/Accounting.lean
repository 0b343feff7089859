import Varve.Engine.Packing
import Varve.Engine.Pages

/-!
# Bounds on a table's derived pages

`TableAccounting` in `engine.rs`: the bytes of a map's JSON text and the number of its entries
bound the pages that the greedy packing can need, without packing anything.
-/

namespace Varve.Engine

open Result (ensure ensure_bind bind_ok ensure_ok)
open Text (len)
open Journal (Digest)
open Packing (pack load)

/-- A result of `usize` arithmetic that saturates. -/
def saturate (n : Nat) : Nat := min n u64Max

structure MapAccounting where
  jsonBytes : Nat
  entries : Nat
  maxEntryBytes : Nat
deriving DecidableEq

structure TableAccounting where
  rollups : MapAccounting
  receipts : MapAccounting
  rootBound : Nat
  encodedBound : Nat
  oversizedSets : Nat
deriving DecidableEq

namespace MapAccounting

/-- The bytes of all entries as page entries, with separators. -/
def body (m : MapAccounting) : Nat := saturate (m.jsonBytes - 2 + saturate (m.entries * 2))

def pages (m : MapAccounting) (capacity : Nat) : Nat :=
  min m.entries (saturate (m.body * 2) / capacity + 1)

end MapAccounting

def mapAccounting (json : T → Text) (map : Map T) : MapAccounting where
  jsonBytes := len (map.json json)
  entries := map.toList.length
  maxEntryBytes := map.toList.foldl (fun n p => max n (entrySize json p)) 0

namespace TableAccounting

def boundKind (name : Text) (config : Config) (t : TableAccounting) (kind : PageKind)
    (map : MapAccounting) : Except String TableAccounting :=
  if map.entries = 0 then .ok t
  else do
    ensure (pageOverhead name kind ≤ config.derivedPageBytes) "derived page target too small"
    let capacity := config.derivedPageBytes - pageOverhead name kind
    let pages := map.pages capacity
    .ok { t with
      oversizedSets := t.oversizedSets + if capacity < map.maxEntryBytes then 1 else 0
      encodedBound := saturate (saturate (t.encodedBound + map.body) +
        saturate (pages * pageOverhead name kind))
      rootBound := saturate (saturate (t.rootBound + saturate (pages * 192)) + 38) }

def bound (t : TableAccounting) (name : Text) (config : Config) :
    Except String TableAccounting := do
  let cleared := { t with rootBound := 0, encodedBound := 0, oversizedSets := 0 }
  let rollups ← cleared.boundKind name config .rollup t.rollups
  rollups.boundKind name config .receipt t.receipts

def entriesFit (t : TableAccounting) (name : Text) (config : Config) : Except String Unit := do
  ensure (saturate (t.rollups.maxEntryBytes + pageOverhead name .rollup) ≤ config.derivedPageBytes)
    "derived entry exceeds configured page target"
  ensure (saturate (t.receipts.maxEntryBytes + pageOverhead name .receipt) ≤
      config.derivedPageBytes)
    "derived entry exceeds configured page target"

end TableAccounting

/-- What is tracked of a map: its exact text and count, and a bound on its largest entry. -/
structure Tracks (m : MapAccounting) (json : T → Text) (map : Map T) : Prop where
  jsonBytes : m.jsonBytes = len (map.json json)
  entries : m.entries = map.toList.length
  maxEntryBytes : ∀ p ∈ map.toList, entrySize json p ≤ m.maxEntryBytes

section
variable {T : Type} {json : T → Text} {map : Map T} {m : MapAccounting}

theorem entrySize_eq (p : Text × T) :
    entrySize json p = len (Json.string p.1) + 1 + len (json p.2) + 2 := by
  have hopen : Char.utf8Size '[' = 1 := rfl
  have hcomma : Char.utf8Size ',' = 1 := rfl
  have hclose : Char.utf8Size ']' = 1 := rfl
  simp only [entrySize, entryText, Json.array, List.intersperse_cons_cons,
    List.intersperse_singleton, List.flatten_cons, List.flatten_nil, Text.len_cons,
    Text.len_append, Text.len_nil, hopen, hcomma, hclose]
  omega

theorem Tracks.sum_entries (h : Tracks m json map) :
    m.jsonBytes - 2 + m.entries * 2 =
      (map.toList.map (entrySize json)).sum + (map.toList.length - 1) := by
  have hsum : (map.toList.map (entrySize json)).sum =
      (map.toList.map fun p => len (Json.string p.1) + 1 + len (json p.2)).sum +
        map.toList.length * 2 := by
    induction map.toList with
    | nil => rfl
    | cons p l ih =>
      simp only [List.map_cons, List.sum_cons, ih, entrySize_eq, List.length_cons]
      omega
  rw [h.jsonBytes, h.entries, Map.json, Json.len_object, hsum]
  simp only [List.map_map, List.length_map, Function.comp_def]
  omega

theorem mapAccounting_tracks (json : T → Text) (map : Map T) :
    Tracks (mapAccounting json map) json map where
  jsonBytes := rfl
  entries := rfl
  maxEntryBytes := by
    have hfold : ∀ (l : List (Text × T)) (n : Nat),
        n ≤ l.foldl (fun n p => max n (entrySize json p)) n ∧
          ∀ p ∈ l, entrySize json p ≤ l.foldl (fun n p => max n (entrySize json p)) n := by
      intro l
      induction l with
      | nil => simp
      | cons q l ih =>
        intro n
        obtain ⟨hn, hl⟩ := ih (max n (entrySize json q))
        refine ⟨(Nat.le_max_left _ _).trans hn, List.forall_mem_cons.mpr ⟨?_, hl⟩⟩
        exact (Nat.le_max_right _ _).trans hn
    exact (hfold map.toList 0).2

variable {H : Digest} {table : Text} {kind : PageKind} {limits : PageLimits}
  {validate : Text → T → Except String Unit} {emit : Page → Except String Unit} {set : PageSet}

theorem Encoded.length_pages {rows : List (Text × T)}
    (h : Encoded H table kind limits json validate emit rows set) :
    set.pages.length = (groupsOf table kind limits json rows).length := by
  simp [h.pages, PageSet.extend, PageSet.empty]

/-- The overhead of the pages, the entries, and a separator for all but the first of each page. -/
theorem Encoded.encodedBytes {rows : List (Text × T)}
    (h : Encoded H table kind limits json validate emit rows set) :
    set.encodedBytes + set.pages.length =
      set.pages.length * pageOverhead table kind + (rows.map (entrySize json)).sum +
        rows.length := by
  have hne : ∀ group ∈ groupsOf table kind limits json rows, group ≠ [] :=
    fun _ hg => Packing.ne_nil_of_mem_pack hg
  have hload := Packing.sum_load (entrySize json) hne
  have hflat : (groupsOf table kind limits json rows).flatten = rows := by
    simp [groupsOf, Packing.flatten_pack]
  have hsum : ∀ groups : List (List (Text × T)),
      (groups.map fun group => (encodePage H table kind json group).ref.bytes).sum =
        groups.length * pageOverhead table kind + (groups.map (load (entrySize json))).sum := by
    intro groups
    induction groups with
    | nil => simp
    | cons group groups ih =>
      rw [List.map_cons, List.sum_cons, ih, pageRef_bytes, List.length_cons, Nat.add_mul,
        Nat.one_mul, List.map_cons, List.sum_cons]
      omega
  have hbytes : set.encodedBytes = ((groupsOf table kind limits json rows).map fun group =>
      (encodePage H table kind json group).ref.bytes).sum := by
    simp [h.pages, PageSet.extend, PageSet.empty]
  rw [hflat] at hload
  rw [hbytes, hsum, h.length_pages]
  omega

theorem length_le_sum_entrySize (json : T → Text) (l : List (Text × T)) :
    l.length ≤ (l.map (entrySize json)).sum := by
  induction l with
  | nil => simp
  | cons p l ih =>
    have := entrySize_pos json p
    simp only [List.length_cons, List.map_cons, List.sum_cons]
    omega

/-- The tracked figures bound the pages and bytes of a set that is far from the end of `usize`. -/
theorem Tracks.bound (h : Tracks m json map)
    (he : Encoded H table kind limits json validate emit map.toList set)
    (hsmall : set.encodedBytes ≤ 2 ^ 29) (ho : pageOverhead table kind < limits.pageBytes)
    (hne : m.entries ≠ 0) :
    set.pages.length ≤ m.pages (limits.pageBytes - pageOverhead table kind) ∧
      set.encodedBytes ≤ m.body +
        m.pages (limits.pageBytes - pageOverhead table kind) * pageOverhead table kind ∧
      m.body ≤ 2 ^ 30 ∧ m.pages (limits.pageBytes - pageOverhead table kind) ≤ 2 ^ 29 := by
  have hbytes := he.encodedBytes
  have hsum := h.sum_entries
  have hn := h.entries
  have hrows : map.toList ≠ [] := by
    intro hnil
    simp [hn, hnil] at hne
  have hlen := length_le_sum_entrySize json map.toList
  have hitems : set.pages.length ≤ map.toList.length := by
    rw [he.length_pages]
    exact Packing.length_pack_le_items
  have hgreedy : set.pages.length ≤ 2 * ((map.toList.map (entrySize json)).sum +
      (map.toList.length - 1)) / (limits.pageBytes - pageOverhead table kind) + 1 := by
    rw [he.length_pages]
    exact Packing.length_pack_le (by omega) hrows
  have hone : 1 ≤ set.pages.length := by
    rw [he.length_pages, Nat.one_le_iff_ne_zero]
    intro hzero
    have hflat : (groupsOf table kind limits json map.toList).flatten = map.toList := by
      simp [groupsOf, Packing.flatten_pack]
    rw [List.length_eq_zero_iff.mp hzero] at hflat
    exact hrows hflat.symm
  have hS : (map.toList.map (entrySize json)).sum ≤ set.encodedBytes := by
    have := Nat.zero_le (set.pages.length * pageOverhead table kind)
    omega
  have hmax : u64Max = 2 ^ 64 - 1 := rfl
  have hbody : m.body = (map.toList.map (entrySize json)).sum + (map.toList.length - 1) := by
    simp only [MapAccounting.body, saturate]
    omega
  have hpages : m.pages (limits.pageBytes - pageOverhead table kind) = min map.toList.length
      (2 * ((map.toList.map (entrySize json)).sum + (map.toList.length - 1)) /
        (limits.pageBytes - pageOverhead table kind) + 1) := by
    have hsat : saturate (m.body * 2) = m.body * 2 := Nat.min_eq_left (by omega)
    rw [MapAccounting.pages, hsat, hbody, hn, Nat.mul_comm 2]
  have hle : set.pages.length ≤ m.pages (limits.pageBytes - pageOverhead table kind) := by
    rw [hpages]
    exact Nat.le_min.mpr ⟨hitems, hgreedy⟩
  have hover := Nat.mul_le_mul_right (pageOverhead table kind) hle
  refine ⟨hle, ?_, ?_, ?_⟩
  · omega
  · omega
  · rw [hpages]
    omega

theorem Tracks.empty (h : Tracks m json map) (hz : m.entries = 0)
    (he : Encoded H table kind limits json validate emit map.toList set) :
    set.pages.length = 0 ∧ set.encodedBytes = 0 := by
  have hnil : map.toList = [] := List.length_eq_zero_iff.mp (h.entries.symm.trans hz)
  have hset : set = PageSet.empty := by
    rw [he.pages, hnil]
    simp [groupsOf, pack, extend_nil]
  simp [hset, PageSet.empty]

def chargedPages (name : Text) (kind : PageKind) (config : Config) (m : MapAccounting) : Nat :=
  m.pages (config.derivedPageBytes - pageOverhead name kind)

theorem Tracks.boundKind (h : Tracks m json map) {t t' : TableAccounting} {config : Config}
    (hb : t.boundKind table config kind m = .ok t')
    (he : Encoded H table kind limits json validate emit map.toList set)
    (hp : limits.pageBytes = config.derivedPageBytes) (hpage : config.derivedPageBytes ≤ 2 ^ 20)
    (hsmall : set.encodedBytes ≤ 2 ^ 29) (ht : t.encodedBound ≤ 2 ^ 60)
    (hfit : m.entries ≠ 0 → pageOverhead table kind < config.derivedPageBytes) :
    set.pages.length ≤ chargedPages table kind config m ∧
      t.encodedBound + set.encodedBytes ≤ t'.encodedBound ∧
      t'.encodedBound ≤ t.encodedBound + 2 ^ 50 := by
  unfold TableAccounting.boundKind at hb
  split at hb
  next hz =>
    cases hb
    obtain ⟨hpages, hbytes⟩ := h.empty hz he
    exact ⟨by omega, by omega, by omega⟩
  next hne =>
    simp only [ensure_bind, Except.ok.injEq] at hb
    obtain ⟨-, rfl⟩ := hb
    have ho := hfit hne
    obtain ⟨hpages, hbytes, hbody, hcount⟩ := h.bound he hsmall (by omega) hne
    rw [hp] at hpages hbytes hcount
    have hmul : m.pages (config.derivedPageBytes - pageOverhead table kind) *
        pageOverhead table kind ≤ 2 ^ 29 * 2 ^ 20 := Nat.mul_le_mul hcount (by omega)
    have hmax : u64Max = 2 ^ 64 - 1 := rfl
    refine ⟨hpages, ?_, ?_⟩
    · simp only [saturate]
      omega
    · simp only [saturate]
      omega

theorem Tracks.overhead_lt (h : Tracks m json map) {config : Config}
    (hfit : saturate (m.maxEntryBytes + pageOverhead table kind) ≤ config.derivedPageBytes)
    (hpage : config.derivedPageBytes ≤ 2 ^ 20) (hne : m.entries ≠ 0) :
    pageOverhead table kind < config.derivedPageBytes := by
  obtain ⟨p, hp⟩ : ∃ p, p ∈ map.toList := by
    refine List.exists_mem_of_ne_nil _ fun hnil => ?_
    simp [h.entries, hnil] at hne
  have hpos := entrySize_pos json p
  have hle := h.maxEntryBytes p hp
  have hmax : u64Max = 2 ^ 64 - 1 := rfl
  simp only [saturate] at hfit
  omega

theorem Encoded.small {rows : List (Text × T)}
    (h : Encoded H table kind limits json validate emit rows set) :
    set.encodedBytes ≤ limits.maxBytes := by
  have hcheck := h.checked
  unfold PageSet.validate at hcheck
  obtain ⟨⟨⟩, -, hcheck⟩ := bind_ok.mp hcheck
  exact (ensure_bind.mp hcheck).1.2

end

section
variable {F : Type} [F64 F] {H : Digest}

/-- For a table whose entries fit a page, the accounting bounds the pages and the bytes that the
encoder produces for its two maps. -/
theorem page_bound {config : Config} {name : Text} {t t' : TableAccounting}
    {rollups : Map (RollupRow F)} {receipts : Map ReceiptEntry} {maxBytes : Nat}
    {emit : Page → Except String Unit} {rollupSet receiptSet : PageSet}
    (hc : config.validate = .ok ()) (hmax : maxBytes ≤ config.derivedMaxBytes)
    (hr : Tracks t.rollups RollupRow.json rollups)
    (hx : Tracks t.receipts ReceiptEntry.json receipts)
    (hfit : t.entriesFit name config = .ok ()) (hb : t.bound name config = .ok t')
    (her : encodeRollups H name rollups (limits config false maxBytes) emit = .ok rollupSet)
    (hex : encodeReceipts H name receipts (limits config true maxBytes) emit = .ok receiptSet) :
    rollupSet.pages.length ≤ chargedPages name .rollup config t.rollups ∧
      receiptSet.pages.length ≤ chargedPages name .receipt config t.receipts ∧
      rollupSet.encodedBytes + receiptSet.encodedBytes ≤ t'.encodedBound := by
  have her := encodeSet_ok her
  have hex := encodeSet_ok hex
  simp only [Config.validate, ensure_bind] at hc
  obtain ⟨-, -, ⟨-, hmaxBytes, -, hpage, -⟩, -⟩ := hc
  have hpage : config.derivedPageBytes ≤ 2 ^ 20 := hpage
  simp only [TableAccounting.entriesFit, ensure_bind, ensure_ok] at hfit
  have hsmall : rollupSet.encodedBytes ≤ 2 ^ 29 :=
    (her.small.trans hmax).trans hmaxBytes
  have hsmall' : receiptSet.encodedBytes ≤ 2 ^ 29 :=
    (hex.small.trans hmax).trans hmaxBytes
  obtain ⟨middle, hrollups, hreceipts⟩ := bind_ok.mp hb
  obtain ⟨hpages, hbytes, hle⟩ := hr.boundKind hrollups her rfl hpage hsmall (Nat.zero_le _)
    (hr.overhead_lt hfit.1 hpage)
  have hle : middle.encodedBound ≤ 2 ^ 50 := by simpa using hle
  obtain ⟨hpages', hbytes', -⟩ := hx.boundKind hreceipts hex rfl hpage hsmall'
    (hle.trans (by norm_num)) (hx.overhead_lt hfit.2 hpage)
  refine ⟨hpages, hpages', ?_⟩
  dsimp only at hbytes
  omega

end

def smallConfig : Config where
  hotMaxBytes := 1
  metadataMaxBytes := 1024
  derivedPages := true
  derivedMaxBytes := 65536
  derivedPageBytes := 4096
  hotMaxRows := 1
  checkpointFrozenPrefix := false
  walMaxBytes := 1
  maxBatchRows := 1
  maxBatchBytes := 1
  maxIdempotencyKeys := 8
  maxRollupGroups := 8
  maxTables := 1
  segmentRows := 1
  compactMinSegments := 2
  maintenanceIntervalMs := 1

def oneReceipt : Map ReceiptEntry :=
  Map.ofList [("r".toList, ⟨1, 1, List.replicate 64 'a', none, none⟩)]

def oneReceiptAccounting : TableAccounting :=
  ⟨⟨2, 0, 0⟩, mapAccounting ReceiptEntry.json oneReceipt, 0, 0, 0⟩

theorem page_bound_oneReceipt :
    ∃ (t' : TableAccounting) (set : PageSet),
      oneReceiptAccounting.bound "t".toList smallConfig = .ok t' ∧
      encodeReceipts Journal.blake3 "t".toList oneReceipt (limits smallConfig true 65536)
        (fun _ => .ok ()) = .ok set ∧
      set.pages.length ≤ 1 ∧ set.encodedBytes ≤ t'.encodedBound := by
  have : F64 Unit := ⟨fun _ => true, fun _ _ => (), fun _ _ => (), fun _ _ => (),
    fun _ _ => true, fun _ => ['0']⟩
  obtain ⟨t', ht⟩ := Result.ok_of_isOk (x := oneReceiptAccounting.bound "t".toList smallConfig)
    (by decide +kernel)
  obtain ⟨set, hset⟩ := Result.ok_of_isOk (x := encodeReceipts Journal.blake3 "t".toList oneReceipt
    (limits smallConfig true 65536) fun _ => .ok ()) (by decide +kernel)
  have hrollups : encodeRollups Journal.blake3 "t".toList (∅ : Map (RollupRow Unit))
      (limits smallConfig false 65536) (fun _ => .ok ()) = .ok .empty := rfl
  obtain ⟨-, hpages, hbytes⟩ := page_bound (F := Unit) (by decide) (Nat.le_refl _)
    ⟨rfl, rfl, by simp⟩ (mapAccounting_tracks _ _) (by decide +kernel) ht hrollups hset
  refine ⟨t', set, ht, hset, hpages.trans ?_, ?_⟩
  · decide +kernel
  · simpa [PageSet.empty] using hbytes

end Varve.Engine
