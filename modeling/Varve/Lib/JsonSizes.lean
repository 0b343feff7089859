import Mathlib.Data.Nat.Digits.Defs
import Varve.Lib.JsonRead

/-!
# Sizes of JSON texts

Bounds on the bytes of a text from the bytes of what it spells.
-/

namespace Json

open Text (len backslash)

theorem utf8Size_digitChar : ∀ n < 16, (Nat.digitChar n).utf8Size = 1 := by
  decide

theorem len_escape_le (c : Char) : len (escape c) ≤ 6 * c.utf8Size := by
  have hpos := c.utf8Size_pos
  have hslash : backslash.utf8Size = 1 := rfl
  have hu : Char.utf8Size 'u' = 1 := rfl
  have hzero : Char.utf8Size '0' = 1 := rfl
  unfold escape
  split_ifs with h1 h2 h3 h4 h5 h6 h7
  · simp only [Text.len_cons, Text.len_nil, hslash]
    omega
  all_goals simp only [Text.len_cons, Text.len_nil, hslash]
  · have : Char.utf8Size 'b' = 1 := rfl
    omega
  · have : Char.utf8Size 't' = 1 := rfl
    omega
  · have : Char.utf8Size 'n' = 1 := rfl
    omega
  · have : Char.utf8Size 'f' = 1 := rfl
    omega
  · have : Char.utf8Size 'r' = 1 := rfl
    omega
  · rw [hu, hzero, utf8Size_digitChar _ (by omega), utf8Size_digitChar _ (by omega)]
    omega
  · omega

theorem len_string_le (t : Text) : len (string t) ≤ 2 + 6 * len t := by
  have hquote : Char.utf8Size '"' = 1 := rfl
  have hbody : len (t.flatMap escape) ≤ 6 * len t := by
    induction t with
    | nil => simp
    | cons c t ih =>
      have hc := len_escape_le c
      rw [List.flatMap_cons, Text.len_append, Text.len_cons]
      omega
  rw [string, Text.len_cons, Text.len_append, Text.len_cons, Text.len_nil, hquote]
  omega

theorem len_nat_le (hk : 0 < k) (h : n < 10 ^ k) : len (nat n) ≤ k := by
  have hbytes : len (nat n) = (nat n).length := by
    have hone (c : Char) (hc : c ∈ nat n) : c.utf8Size = 1 := by
      have hdigit := isDigit_of_mem_nat hc
      simp only [Char.isDigit, Bool.and_eq_true, decide_eq_true_eq] at hdigit
      exact Char.utf8Size_eq_one_iff.mpr (UInt32.le_trans hdigit.2 (by decide))
    rw [len, List.map_congr_left hone]
    simp
  rw [hbytes]
  exact Nat.toDigits_length 10 n k hk h

theorem len_int_le (hk : 0 < k) (h : i.natAbs < 10 ^ k) : len (int i) ≤ 1 + k := by
  cases i with
  | ofNat n => exact (len_nat_le hk h).trans (Nat.le_add_left _ _)
  | negSucc n =>
    have hminus : Char.utf8Size '-' = 1 := rfl
    rw [int, Text.len_cons, hminus]
    exact Nat.add_le_add_left (len_nat_le hk h) 1

theorem len_array (items : List Text) :
    len (array items) = 2 + (items.map len).sum + (items.length - 1) := by
  have hopen : Char.utf8Size '[' = 1 := rfl
  have hclose : Char.utf8Size ']' = 1 := rfl
  rw [array, Text.len_cons, Text.len_append, Text.len_cons, Text.len_nil, hopen, hclose,
    len_flatten_intersperse]
  omega

theorem escape_hexdigit (h : Text.isAsciiHexdigit c = true) (hb : c ≠ backslash) :
    escape c = [c] ∧ c.utf8Size = 1 := by
  have hrange : 48 ≤ c.toNat ∧ c.toNat ≤ 102 := by
    simp only [Text.isAsciiHexdigit, Char.isDigit, Bool.or_eq_true, Bool.and_eq_true,
      decide_eq_true_eq, Char.le_def, UInt32.le_iff_toNat_le] at h
    have h0 : '0'.val.toNat = 48 := rfl
    have h9 : '9'.val.toNat = 57 := rfl
    have ha : 'a'.val.toNat = 97 := rfl
    have hf : 'f'.val.toNat = 102 := rfl
    have hA : 'A'.val.toNat = 65 := rfl
    have hF : 'F'.val.toNat = 70 := rfl
    show 48 ≤ c.val.toNat ∧ c.val.toNat ≤ 102
    omega
  have hquote : c ≠ '"' := by
    rintro rfl
    exact absurd hrange.1 (by decide)
  refine ⟨?_, Char.utf8Size_eq_one_iff.mpr ?_⟩
  · unfold escape
    rw [if_neg (by simp [hquote, hb])]
    repeat rw [if_neg (by omega)]
  · rw [UInt32.le_iff_toNat_le]
    exact hrange.2.trans (by decide)

theorem len_string_toHex (bytes : Bytes) :
    len (string (Text.toHex bytes)) = 2 + 2 * bytes.length := by
  have hplain (c : Char) (hc : c ∈ Text.toHex bytes) : escape c = [c] ∧ c.utf8Size = 1 := by
    obtain ⟨hdigit, -, -, hb⟩ := Text.mem_toHex hc
    exact escape_hexdigit hdigit hb
  have hbody : (Text.toHex bytes).flatMap escape = Text.toHex bytes := by
    rw [List.flatMap_congr fun c hc => (hplain c hc).1, List.flatMap_singleton']
  have hlen : len (Text.toHex bytes) = 2 * bytes.length := by
    rw [len, List.map_congr_left fun c hc => (hplain c hc).2, ← Text.length_toHex]
    simp
  have hquote : Char.utf8Size '"' = 1 := rfl
  rw [string, hbody, Text.len_cons, Text.len_append, Text.len_cons, Text.len_nil, hquote, hlen]
  omega

end Json
