import Mathlib.Data.List.Infix
import Varve.Lib.Text
import Varve.Wal.Frame

/-!
# Remote objects

The content-addressed references of `tier.rs`.
-/

namespace Varve.Tier

open Journal (Digest)
open Result (ensure)
open Text (toHex isAsciiHexdigit backslash length_toHex mem_toHex)

structure ObjectRef where
  key : Text
  digest : Text
  bytes : Nat
deriving DecidableEq, Repr

namespace ObjectRef

section
variable (H : Digest)

def new (key : Text) (bytes : Bytes) : ObjectRef := ⟨key, toHex (H.hash bytes), bytes.length⟩

end

def validate (o : ObjectRef) (start ending : Text) : Except String Unit := do
  ensure (o.digest.length = 64 ∧ o.digest.all fun c => isAsciiHexdigit c && !c.isUpper)
    "invalid remote object digest"
  ensure (0 < o.bytes ∧ o.bytes ≤ Wal.maxFrameBytes) "remote object exceeds size limit"
  ensure (start <+: o.key ∧ ending <:+ o.key ∧ ¬['.', '.'] <:+: o.key ∧ backslash ∉ o.key)
    "invalid remote object reference"

end ObjectRef

theorem ObjectRef.validate_new {H : Digest} {start ending : Text} {content : Bytes}
    (hb : content ≠ [])
    (hl : content.length ≤ Wal.maxFrameBytes) (hdots : start.count '.' = 0 ∧ ending.count '.' = 1)
    (hslash : backslash ∉ start ∧ backslash ∉ ending) :
    (ObjectRef.new H (start ++ toHex (H.hash content) ++ ending) content).validate start ending =
      .ok () := by
  have hlen : (toHex (H.hash content)).length = 64 := by rw [length_toHex, H.length_hash]
  have hall : (toHex (H.hash content)).all (fun c => isAsciiHexdigit c && !c.isUpper) = true := by
    refine List.all_eq_true.mpr fun c hc => ?_
    obtain ⟨hhex, hupper, -⟩ := mem_toHex hc
    rw [hhex, hupper]
    rfl
  have hcount : (start ++ toHex (H.hash content) ++ ending).count '.' = 1 := by
    have hzero : (toHex (H.hash content)).count '.' = 0 :=
      List.count_eq_zero.mpr fun hc => (mem_toHex hc).2.2.1 rfl
    rw [List.count_append, List.count_append, hdots.1, hzero, hdots.2]
  have hinfix : ¬['.', '.'] <:+: start ++ toHex (H.hash content) ++ ending := by
    intro h
    have htwo : ['.', '.'].count '.' ≤ _ := h.sublist.count_le '.'
    rw [hcount] at htwo
    exact absurd htwo (by decide)
  have hmem : backslash ∉ start ++ toHex (H.hash content) ++ ending := by
    simp only [List.mem_append, not_or]
    exact ⟨⟨hslash.1, fun hc => (mem_toHex hc).2.2.2 rfl⟩, hslash.2⟩
  have hstart : start <+: start ++ toHex (H.hash content) ++ ending := by
    rw [List.append_assoc]
    exact List.prefix_append _ _
  rw [validate, Result.ensure_pos ⟨hlen, hall⟩, Result.ok_bind,
    Result.ensure_pos ⟨List.length_pos_iff.mpr hb, hl⟩, Result.ok_bind]
  exact Result.ensure_pos ⟨hstart, List.suffix_append _ _, hinfix, hmem⟩

end Varve.Tier
