import Varve.Tier.Transport

/-!
# Publication intents

The local files of a remote publication in `tier.rs`: the intent written before the
compare-and-swap of the head, the reservation the binding is written into, and the binding itself.
-/

namespace Varve.Tier

open Journal (Digest)
open Result (ensure ensure_bind)
open Text (toHex)
open Bytes (le64 word)

structure RemoteLock where
  kind : Text
  owner : Text
deriving DecidableEq, Repr

structure Head extends RemoteHead where
  formatVersion : Nat
  databaseId : Text
  owner : Text
  checkpoint : ObjectRef
  lock : Option RemoteLock
deriving DecidableEq, Repr

structure Binding where
  token : Text
  head : Head
deriving DecidableEq, Repr

structure PublicationIntent where
  formatVersion : Nat
  rootDigest : Text
  databaseId : Text
  owner : Text
  sequence : Nat
  expectedToken : Option Text
  intendedHeadDigest : Text
  intendedHead : Bytes
  bindingReservationBytes : Nat
deriving DecidableEq, Repr

/-- `serde_json`: what is read back is what was written. -/
structure Json where
  head : Head → Bytes
  readHead : Bytes → Except String Head
  intent : PublicationIntent → Bytes
  readIntent : Bytes → Except String PublicationIntent
  bindingLength : Binding → Nat
  readHead_head : readHead (head h) = .ok h' → h' = h
  readIntent_intent : readIntent (intent i) = .ok i' → i' = i

def formatVersion : Nat := 1

def maxRemoteTokenBytes : Nat := 64 * 1024

/-- `VARVEPI1`. -/
def intentMagic : Bytes := [86, 65, 82, 86, 69, 80, 73, 49]

def validateToken (token : Text) : Except String Unit :=
  ensure (token ≠ [] ∧ Text.len token ≤ maxRemoteTokenBytes)
    "remote head token exceeds local binding limit"

section
variable (J : Json) (H : Digest) (isUuid : Text → Bool)

def validateWal (keys : List Text) : List ObjectRef → Except String Unit
  | [] => .ok ()
  | r :: rest => do
    r.validate "wal/".toList ".wal".toList
    ensure (r.key ∉ keys) "duplicate remote WAL reference"
    validateWal (r.key :: keys) rest

/-- `RemoteHead::parse`. -/
def Head.parse (bytes : Bytes) : Except String Head := do
  ensure (bytes.length ≤ Wal.maxFrameBytes) "remote head exceeds size limit"
  let head ← J.readHead bytes
  ensure (head.formatVersion = Tier.formatVersion) "unsupported remote head version"
  ensure (isUuid head.databaseId = true ∧ isUuid head.owner = true) "invalid UUID"
  head.checkpoint.validate "manifests/".toList ".bin".toList
  ensure (head.checkpoint.key = "manifests/".toList ++ head.checkpoint.digest ++ ".bin".toList)
    "manifest key/digest mismatch"
  validateWal [] head.wal
  validateRefs head.toRemoteHead
  ensure (∀ lock ∈ head.lock, lock.kind = "restore".toList ∨ lock.kind = "gc".toList)
    "unknown remote lock kind"
  ensure (∀ lock ∈ head.lock, isUuid lock.owner = true) "invalid UUID"
  .ok head

-- The intent file

def encodeIntent (intent : PublicationIntent) : Except String Bytes := do
  let payload := J.intent intent
  ensure (payload.length ≤ Wal.maxFrameBytes - 48) "publication intent exceeds format limit"
  let content := intentMagic ++ le64 payload.length ++ payload
  .ok (content ++ H.hash content)

def decodeIntent (bytes : Bytes) : Except String PublicationIntent := do
  ensure (48 ≤ bytes.length ∧ bytes.length ≤ Wal.maxFrameBytes) "invalid publication intent size"
  ensure (bytes.take 8 = intentMagic) "invalid publication intent magic"
  ensure (word bytes 8 = bytes.length - 48) "truncated or trailing publication intent bytes"
  ensure (H.hash (bytes.take (bytes.length - 32)) = bytes.drop (bytes.length - 32))
    "publication intent checksum mismatch"
  let intent ← J.readIntent ((bytes.take (bytes.length - 32)).drop 16)
  ensure (intent.formatVersion = formatVersion) "unsupported publication intent version"
  intent.expectedToken.elim (.ok ()) validateToken
  ensure (intent.intendedHead.length ≤ Wal.maxFrameBytes)
    "publication intent head exceeds size limit"
  ensure (toHex (H.hash intent.intendedHead) = intent.intendedHeadDigest)
    "publication intent head checksum mismatch"
  .ok intent

/-- What opening a database knows of itself when it loads the binding. -/
structure Local where
  rootDigest : Text
  databaseId : Text
  sequence : Nat
deriving DecidableEq, Repr

def validateIntent (loc : Local) (intent : PublicationIntent) : Except String Head := do
  ensure (intent.rootDigest = loc.rootDigest)
    "publication intent belongs to a different database root"
  ensure (intent.databaseId = loc.databaseId) "publication intent database identity mismatch"
  ensure (intent.sequence ≤ loc.sequence)
    "publication intent sequence is ahead of local recovery state"
  let head ← Head.parse J isUuid intent.intendedHead
  ensure (head.databaseId = intent.databaseId ∧ head.owner = intent.owner ∧
    head.sequence = intent.sequence) "publication intent identity does not match its intended head"
  ensure (0 < intent.bindingReservationBytes ∧ intent.bindingReservationBytes ≤ Wal.maxFrameBytes)
    "invalid publication binding reservation size"
  .ok head

def bindingMatchesIntent (binding : Binding) (intent : PublicationIntent) : Prop :=
  J.head binding.head = intent.intendedHead

instance : Decidable (bindingMatchesIntent J b i) := inferInstanceAs (Decidable (_ = _))

end

variable {J : Json} {H : Digest}

theorem decodeIntent_encodeIntent (h : encodeIntent J H i = .ok bytes)
    (hd : decodeIntent J H bytes = .ok i') : i' = i := by
  simp only [encodeIntent, ensure_bind, Except.ok.injEq] at h
  obtain ⟨-, rfl⟩ := h
  simp only [decodeIntent, ensure_bind] at hd
  obtain ⟨-, -, -, -, hd⟩ := hd
  obtain ⟨j, hj, hd⟩ := Result.bind_ok.mp hd
  have hp : ((intentMagic ++ le64 (J.intent i).length ++ J.intent i ++
      H.hash (intentMagic ++ le64 (J.intent i).length ++ J.intent i)).take
      ((intentMagic ++ le64 (J.intent i).length ++ J.intent i ++
      H.hash (intentMagic ++ le64 (J.intent i).length ++ J.intent i)).length - 32)).drop 16 =
      J.intent i := by
    rw [List.take_left' (by simp only [List.length_append, H.length_hash]; omega),
      List.drop_left' (by simp [intentMagic])]
  rw [hp] at hj
  have hji := J.readIntent_intent hj
  rw [ensure_bind] at hd
  obtain ⟨-, hd⟩ := hd
  obtain ⟨_, -, hd⟩ := Result.bind_ok.mp hd
  rw [ensure_bind, ensure_bind] at hd
  obtain ⟨-, -, hd⟩ := hd
  cases hd
  exact hji

theorem Head.parse_head {isUuid : Text → Bool} (h : Head.parse J isUuid (J.head x) = .ok y) :
    y = x := by
  simp only [Head.parse, ensure_bind] at h
  obtain ⟨-, h⟩ := h
  obtain ⟨z, hz, h⟩ := Result.bind_ok.mp h
  have hzx := J.readHead_head hz
  simp only [ensure_bind] at h
  obtain ⟨-, -, h⟩ := h
  obtain ⟨_, -, h⟩ := Result.bind_ok.mp h
  rw [ensure_bind] at h
  obtain ⟨_, -, h⟩ := Result.bind_ok.mp h.2
  obtain ⟨_, -, h⟩ := Result.bind_ok.mp h
  rw [ensure_bind, ensure_bind] at h
  cases h.2.2
  exact hzx

end Varve.Tier
