import Varve.Journal.Format

/-!
# WAL frames

`wal.rs`, format `VARVEW01`: the frame around one encoded record.
-/

namespace Varve.Wal

open Journal (Digest)
open Result (ensure)
open Bytes (le64 word)

/-- `VARVEW01`. -/
def magic : Bytes := [86, 65, 82, 86, 69, 87, 48, 49]

def maxFrameBytes : Nat := 128 * 1024 * 1024

def formatVersion : Nat := 1

structure Record (Op : Type) where
  formatVersion : Nat
  sequence : Nat
  operation : Op
deriving DecidableEq, Repr

def Record.new (sequence : Nat) (operation : Op) : Record Op :=
  ⟨Wal.formatVersion, sequence, operation⟩

section
variable (H : Digest)

def frame (payload : Bytes) : Bytes :=
  let content := magic ++ le64 payload.length ++ payload
  content ++ H.hash content

def encodePayload (payload : Bytes) (limit : Nat) : Except String Bytes := do
  ensure (48 ≤ limit) "WAL frame exceeds format limit"
  ensure (16 + payload.length ≤ limit - 32) "WAL frame exceeds format limit"
  .ok (frame H payload)

def decode (fromSlice : Bytes → Except String (Record Op)) (bytes : Bytes) :
    Except String (Record Op) := do
  ensure (48 ≤ bytes.length ∧ bytes.length ≤ maxFrameBytes) "invalid WAL frame size"
  ensure (bytes.take 8 = magic) "invalid WAL magic/version"
  ensure (word bytes 8 = bytes.length - 48) "truncated or trailing WAL bytes"
  ensure (H.hash (bytes.take (bytes.length - 32)) = bytes.drop (bytes.length - 32))
    "WAL checksum mismatch"
  let record ← fromSlice ((bytes.take (bytes.length - 32)).drop 16)
  ensure (record.formatVersion = formatVersion ∧ 0 < record.sequence)
    "unsupported WAL version or sequence"
  .ok record

end

variable {H : Digest}

theorem length_frame : (frame H payload).length = payload.length + 48 := by
  simp [frame, magic, H.length_hash]
  omega

theorem take_frame : (frame H payload).take (payload.length + 16) =
    magic ++ le64 payload.length ++ payload := by
  refine List.take_left' ?_
  simp [magic]
  omega

theorem drop_frame : (frame H payload).drop (payload.length + 16) =
    H.hash (magic ++ le64 payload.length ++ payload) := by
  refine List.drop_left' ?_
  simp [magic]
  omega

theorem decode_encodePayload {fromSlice : Bytes → Except String (Record Op)}
    (he : encodePayload H payload limit = .ok bytes) (hl : limit ≤ maxFrameBytes)
    (hr : fromSlice payload = .ok record) (hv : record.formatVersion = formatVersion)
    (hs : 0 < record.sequence) : decode H fromSlice bytes = .ok record := by
  simp only [encodePayload, Result.ensure_bind] at he
  obtain ⟨h48, hfit, he⟩ := he
  cases he
  have hmax : maxFrameBytes < 2 ^ 64 := by decide
  have hlen : (frame H payload).length = payload.length + 48 := length_frame
  have hsub : payload.length + 48 - 32 = payload.length + 16 := rfl
  have hword : word (frame H payload) 8 = payload.length := by
    rw [frame, List.append_assoc, List.append_assoc]
    exact (Bytes.word_append_of_length (k := 0) rfl).trans (Bytes.word_le64 (by omega))
  have hdrop : (magic ++ le64 payload.length ++ payload).drop 16 = payload :=
    List.drop_left' (by simp [magic])
  simp only [decode, hlen, hsub, take_frame, drop_frame, hdrop, hr, Result.ok_bind]
  rw [Result.ensure_pos (by omega), Result.ok_bind, Result.ensure_pos (by simp [frame, magic]),
    Result.ok_bind, Result.ensure_pos (by omega), Result.ok_bind, Result.ensure_pos trivial,
    Result.ok_bind, Result.ensure_pos ⟨hv, hs⟩, Result.ok_bind]

end Varve.Wal
