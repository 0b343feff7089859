import Varve.Lib.Packing
import Varve.Engine.Pages

/-!
# What a page set is

The loop of `encode_set` packs the entries greedily: the pages of a set are the pages of its
groups, in order, and the totals are the sums over them.
-/

namespace Varve.Engine

open Result (ensure_bind bind_ok)
open Text (len)
open Journal (Digest)
open Packing (pack load)

section
variable {T : Type} {H : Digest} {table : Text} {kind : PageKind} {limits : PageLimits}
  {json : T → Text} {validate : Text → T → Except String Unit} {emit : Page → Except String Unit}
  {set set' : PageSet} {group pending rows : List (Text × T)}

def entrySize (json : T → Text) (entry : Text × T) : Nat := len (entryText json entry)

theorem len_payload (entries : List (Text × T)) :
    len (payload json entries) = load (entrySize json) entries := by
  simp only [payload, Json.len_flatten_intersperse, load, List.map_map, List.length_map]
  rfl

theorem length_sealText (magic : Bytes) (text : Text) :
    (sealText H magic text).length = magic.length + len text + 32 := by
  simp [sealText, H.length_hash, Nat.add_assoc]

theorem pageRef_bytes (entries : List (Text × T)) :
    (encodePage H table kind json entries).ref.bytes =
      pageOverhead table kind + load (entrySize json) entries := by
  have hclose : Char.utf8Size (Char.ofNat 125) = 1 := rfl
  have hbracket : Char.utf8Size ']' = 1 := rfl
  simp only [encodePage, length_sealText, pageText, Text.len_append, Text.len_cons, Text.len_nil,
    len_payload, pageOverhead, frameBytes, hclose, hbracket, pageMagic, List.length_cons,
    List.length_nil]
  omega

def PageSet.extend (H : Digest) (table : Text) (kind : PageKind) (json : T → Text) (set : PageSet)
    (groups : List (List (Text × T))) : PageSet where
  pages := set.pages ++ groups.map fun group => (encodePage H table kind json group).ref
  entries := set.entries + (groups.map List.length).sum
  encodedBytes := set.encodedBytes +
    (groups.map fun group => (encodePage H table kind json group).ref.bytes).sum

theorem flushPage_ok (h : flushPage H table kind limits json emit group set = .ok set') :
    set' = set.extend H table kind json [group] ∧
      emit (encodePage H table kind json group) = .ok () ∧
      set'.encodedBytes ≤ limits.maxBytes := by
  simp only [flushPage, ensure_bind] at h
  obtain ⟨-, hmax, h⟩ := h
  obtain ⟨⟨⟩, hemit, h⟩ := bind_ok.mp h
  cases h
  exact ⟨by simp [PageSet.extend], hemit, hmax⟩

theorem entrySize_pos (json : T → Text) (entry : Text × T) : 0 < entrySize json entry := by
  have hopen : Char.utf8Size '[' = 1 := rfl
  simp only [entrySize, entryText, Json.array, Text.len_cons, hopen]
  omega

theorem extend_nil : set.extend H table kind json [] = set := by simp [PageSet.extend]

theorem extend_cons (groups : List (List (Text × T))) :
    (set.extend H table kind json [group]).extend H table kind json groups =
      set.extend H table kind json (group :: groups) := by
  simp [PageSet.extend, Nat.add_assoc]

theorem encodeRows_ok
    (h : encodeRows H table kind limits json validate emit rows index pending set = .ok set') :
    set' = set.extend H table kind json
        (pack (entrySize json) (limits.pageBytes - pageOverhead table kind) pending rows) ∧
      (∀ p ∈ rows, validate p.1 p.2 = .ok () ∧
        entrySize json p ≤ limits.pageBytes - pageOverhead table kind) ∧
      ∀ group ∈ pack (entrySize json) (limits.pageBytes - pageOverhead table kind) pending rows,
        emit (encodePage H table kind json group) = .ok () := by
  induction rows generalizing index pending set with
  | nil =>
    unfold encodeRows at h
    unfold pack
    split at h
    next hp =>
      cases h
      simp [hp, extend_nil]
    next hp =>
      obtain ⟨rfl, hemit, -⟩ := flushPage_ok h
      simp [hp, hemit]
  | cons p rows ih =>
    obtain ⟨key, row⟩ := p
    simp only [encodeRows, ensure_bind] at h
    obtain ⟨-, h⟩ := h
    obtain ⟨⟨⟩, hvalid, h⟩ := bind_ok.mp h
    simp only [ensure_bind] at h
    obtain ⟨hfits, h⟩ := h
    have hpos := entrySize_pos json (key, row)
    -- The entry fits a page, so the page is larger than its overhead.
    have hfull : (pending ≠ [] ∧ limits.pageBytes < pageOverhead table kind +
          len (payload json pending) + 1 + len (entryText json (key, row))) ↔
        pending ≠ [] ∧ limits.pageBytes - pageOverhead table kind <
          load (entrySize json) pending + 1 + entrySize json (key, row) := by
      rw [len_payload]
      unfold entrySize at hpos ⊢
      refine and_congr_right fun _ => ?_
      omega
    unfold pack
    rw [← if_congr hfull rfl rfl]
    split at h
    next hflush =>
      obtain ⟨middle, hm, h⟩ := bind_ok.mp h
      obtain ⟨rfl, hemit, -⟩ := flushPage_ok hm
      obtain ⟨rfl, hrows, hpages⟩ := ih h
      rw [if_pos hflush, extend_cons]
      exact ⟨rfl, List.forall_mem_cons.mpr ⟨⟨hvalid, hfits⟩, hrows⟩,
        List.forall_mem_cons.mpr ⟨hemit, hpages⟩⟩
    next hroom =>
      obtain ⟨rfl, hrows, hpages⟩ := ih h
      rw [if_neg hroom]
      exact ⟨rfl, List.forall_mem_cons.mpr ⟨⟨hvalid, hfits⟩, hrows⟩, hpages⟩

def groupsOf (table : Text) (kind : PageKind) (limits : PageLimits) (json : T → Text)
    (rows : List (Text × T)) : List (List (Text × T)) :=
  pack (entrySize json) (limits.pageBytes - pageOverhead table kind) [] rows

/-- What the encoder has checked and written when it succeeds. -/
structure Encoded (H : Digest) (table : Text) (kind : PageKind) (limits : PageLimits)
    (json : T → Text) (validate : Text → T → Except String Unit)
    (emit : Page → Except String Unit) (rows : List (Text × T)) (set : PageSet) : Prop where
  name : validateName table = .ok ()
  pages : set = PageSet.empty.extend H table kind json (groupsOf table kind limits json rows)
  valid : ∀ p ∈ rows, validate p.1 p.2 = .ok ()
  fits : ∀ p ∈ rows, entrySize json p ≤ limits.pageBytes - pageOverhead table kind
  emitted : ∀ group ∈ groupsOf table kind limits json rows,
    emit (encodePage H table kind json group) = .ok ()
  checked : set.validate limits = .ok ()

theorem encodeSet_ok (h : encodeSet H table kind limits json validate emit rows = .ok set) :
    Encoded H table kind limits json validate emit rows set := by
  simp only [encodeSet] at h
  obtain ⟨⟨⟩, hlimits, h⟩ := bind_ok.mp h
  obtain ⟨⟨⟩, hname, h⟩ := bind_ok.mp h
  split at h
  next hrows =>
    cases h
    subst hrows
    refine ⟨hname, by simp [groupsOf, pack, extend_nil], by simp, by simp,
      by simp [groupsOf, pack], ?_⟩
    rw [PageSet.validate, hlimits]
    rfl
  next hrows =>
    simp only [ensure_bind] at h
    obtain ⟨-, h⟩ := h
    obtain ⟨set', hset, h⟩ := bind_ok.mp h
    obtain ⟨⟨⟩, hcheck, h⟩ := bind_ok.mp h
    cases h
    obtain ⟨hpages, hvalid, hemitted⟩ := encodeRows_ok hset
    exact ⟨hname, hpages, fun p hp => (hvalid p hp).1, fun p hp => (hvalid p hp).2, hemitted,
      hcheck⟩

end

end Varve.Engine
