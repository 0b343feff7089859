import Varve.Engine.Catalog

/-!
# Derived pages

The page codec of `derived.rs`: a sorted map of receipts or rollups is cut greedily into pages
named by their digests and read back page by page.
-/

namespace Varve.Engine

open Result (ensure)
open Text (len toHex)
open Journal (Digest)

def maxPageBytes : Nat := 1024 * 1024

/-- `VARVED01`. -/
def pageMagic : Bytes := [86, 65, 82, 86, 69, 68, 48, 49]

def frameBytes : Nat := 40

inductive PageKind where
  | rollup
  | receipt
deriving DecidableEq

def PageKind.json : PageKind → Text
  | .rollup => Json.string "rollup".toList
  | .receipt => Json.string "receipt".toList

structure PageRef where
  digest : Text
  bytes : Nat
  entries : Nat
deriving DecidableEq

structure PageSet where
  pages : List PageRef
  entries : Nat
  encodedBytes : Nat
deriving DecidableEq

def PageSet.empty : PageSet := ⟨[], 0, 0⟩

structure PageLimits where
  pageBytes : Nat
  maxBytes : Nat
  maxEntries : Nat

def PageLimits.validate (l : PageLimits) : Except String Unit := do
  ensure (4096 ≤ l.pageBytes ∧ l.pageBytes ≤ maxPageBytes) "invalid derived page target"
  ensure (0 < l.maxEntries) "invalid derived page limits"

namespace PageRef

def validate (p : PageRef) : Except String Unit := do
  ensure (validDigest p.digest) "invalid derived page digest"
  ensure (frameBytes ≤ p.bytes ∧ p.bytes ≤ maxPageBytes) "invalid derived page size"
  ensure (0 < p.entries ∧ p.entries ≤ p.bytes) "invalid derived page bounds"

def verify (H : Digest) (p : PageRef) (bytes : Bytes) : Except String Unit := do
  p.validate
  ensure (bytes.length = p.bytes) "derived page size mismatch"
  ensure (toHex (H.hash bytes) = p.digest) "derived page digest mismatch"
  ensure (bytes.take 8 = pageMagic) "unsupported derived page format"
  ensure (H.hash (bytes.take (bytes.length - 32)) = bytes.drop (bytes.length - 32))
    "derived page checksum mismatch"

end PageRef

/-- The references in turn, each under a digest not seen before it, with the totals so far. -/
def validatePages : List Text → Nat → Nat → List PageRef → Except String (Nat × Nat)
  | _, entries, bytes, [] => .ok (entries, bytes)
  | digests, entries, bytes, page :: pages => do
    page.validate
    ensure (page.digest ∉ digests) "duplicate derived page"
    ensure (entries + page.entries ≤ u64Max) "derived entry count overflow"
    ensure (bytes + page.bytes ≤ u64Max) "derived page bytes overflow"
    validatePages (page.digest :: digests) (entries + page.entries) (bytes + page.bytes) pages

def PageSet.validate (s : PageSet) (l : PageLimits) : Except String Unit := do
  l.validate
  ensure (s.entries ≤ l.maxEntries ∧ s.encodedBytes ≤ l.maxBytes) "derived page set budget exceeded"
  let (entries, bytes) ← validatePages [] 0 0 s.pages
  ensure (entries = s.entries ∧ bytes = s.encodedBytes) "inconsistent derived page set totals"

def pageOpening (table : Text) (kind : PageKind) : Text :=
  Char.ofNat 123 :: (Json.string "table".toList ++ ':' :: Json.string table ++ ',' ::
    Json.string "kind".toList ++ ':' :: kind.json ++ ',' :: Json.string "entries".toList ++
    ":[".toList)

def pageOverhead (table : Text) (kind : PageKind) : Nat :=
  frameBytes + len (pageOpening table kind) + 2

structure Page where
  ref : PageRef
  bytes : Bytes

section
variable {T : Type} (H : Digest) (table : Text) (kind : PageKind) (limits : PageLimits)
  (json : T → Text) (validate : Text → T → Except String Unit)

def entryText (entry : Text × T) : Text := Json.array [Json.string entry.1, json entry.2]

def payload (entries : List (Text × T)) : Text :=
  ((entries.map (entryText json)).intersperse [',']).flatten

def pageText (entries : List (Text × T)) : Text :=
  pageOpening table kind ++ payload json entries ++ [']', Char.ofNat 125]

def encodePage (entries : List (Text × T)) : Page :=
  let bytes := sealText H pageMagic (pageText table kind json entries)
  ⟨⟨toHex (H.hash bytes), bytes.length, entries.length⟩, bytes⟩

variable (emit : Page → Except String Unit)

def flushPage (entries : List (Text × T)) (set : PageSet) : Except String PageSet := do
  let page := encodePage H table kind json entries
  ensure (set.encodedBytes + page.ref.bytes ≤ u64Max) "derived encoded bytes overflow"
  ensure (set.encodedBytes + page.ref.bytes ≤ limits.maxBytes)
    "derived encoded byte budget exceeded"
  emit page
  .ok ⟨set.pages ++ [page.ref], set.entries + entries.length, set.encodedBytes + page.ref.bytes⟩

/-- The loop over the rows: `pending` are the entries of the page being filled. -/
def encodeRows : List (Text × T) → Nat → List (Text × T) → PageSet → Except String PageSet
  | [], _, pending, set =>
    if pending = [] then .ok set else flushPage H table kind limits json emit pending set
  | (key, row) :: rows, index, pending, set => do
    ensure (index < limits.maxEntries) "derived entry budget exceeded"
    validate key row
    ensure (len (entryText json (key, row)) ≤ limits.pageBytes - pageOverhead table kind)
      "derived encoding exceeds page budget"
    if pending ≠ [] ∧ limits.pageBytes < pageOverhead table kind + len (payload json pending) + 1 +
        len (entryText json (key, row)) then do
      let set ← flushPage H table kind limits json emit pending set
      encodeRows rows (index + 1) [(key, row)] set
    else encodeRows rows (index + 1) (pending ++ [(key, row)]) set

def encodeSet (rows : List (Text × T)) : Except String PageSet := do
  limits.validate
  validateName table
  if rows = [] then .ok .empty
  else do
    ensure (limits.pageBytes * 4 ≤ limits.maxBytes) "derived encoding working budget exceeded"
    let set ← encodeRows H table kind limits json validate emit rows 0 [] .empty
    set.validate limits
    .ok set

end

structure Payload (T : Type) where
  table : Text
  kind : PageKind
  entries : List (Text × T)

section
variable {T : Type} (H : Digest) (table : Text) (kind : PageKind) (limits : PageLimits)
  (fromSlice : Bytes → Except String (Payload T)) (validate : Text → T → Except String Unit)
  (resident : Text → T → Nat) (load : PageRef → Except String Bytes)

structure Hydrating (T : Type) where
  rows : Map T
  residentBytes : Nat
  previous : Option Text

def hydrateEntries : Hydrating T → List (Text × T) → Except String (Hydrating T)
  | h, [] => .ok h
  | h, (key, value) :: entries => do
    ensure (h.previous.all fun previous => compare previous key = .lt)
      "duplicate or unordered derived entry"
    validate key value
    ensure (h.residentBytes + resident key value ≤ limits.maxBytes)
      "derived resident budget exceeded"
    ensure (key ∉ h.rows) "duplicate derived entry across pages"
    hydrateEntries ⟨h.rows.insert key value, h.residentBytes + resident key value, some key⟩ entries

def hydratePage (h : Hydrating T) (page : PageRef) : Except String (Hydrating T) := do
  ensure (h.residentBytes + page.bytes * 64 ≤ limits.maxBytes)
    "derived hydration working budget exceeded"
  let bytes ← load page
  page.verify H bytes
  let payload ← fromSlice ((bytes.take (bytes.length - 32)).drop 8)
  ensure (payload.table = table ∧ payload.kind = kind) "derived page table/kind mismatch"
  ensure (payload.entries.length = page.entries) "derived page entry count mismatch"
  hydrateEntries limits validate resident h payload.entries

def hydrateSet (set : PageSet) : Except String (Map T) := do
  validateName table
  set.validate limits
  let h ← set.pages.foldlM (hydratePage H table kind limits fromSlice validate resident load)
    ⟨∅, 0, none⟩
  .ok h.rows

end

section
variable {F : Type} [F64 F] (H : Digest) (table : Text)

def encodeRollups (rows : Map (RollupRow F)) (limits : PageLimits)
    (emit : Page → Except String Unit) : Except String PageSet :=
  encodeSet H table .rollup limits RollupRow.json validateRollup emit rows.toList

def encodeReceipts (rows : Map ReceiptEntry) (limits : PageLimits)
    (emit : Page → Except String Unit) : Except String PageSet :=
  encodeSet H table .receipt limits ReceiptEntry.json validateReceipt emit rows.toList

def hydrateReceipts (fromSlice : Bytes → Except String (Payload ReceiptEntry))
    (load : PageRef → Except String Bytes) (set : PageSet) (limits : PageLimits) :
    Except String (Map ReceiptEntry) :=
  hydrateSet H table .receipt limits fromSlice validateReceipt receiptResidentBytes load set

end

def limits (config : Config) (receipts : Bool) (maxBytes : Nat) : PageLimits where
  pageBytes := config.derivedPageBytes
  maxBytes := maxBytes
  maxEntries := if receipts then config.maxIdempotencyKeys else config.maxRollupGroups

end Varve.Engine
