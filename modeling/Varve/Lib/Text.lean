import Mathlib.Algebra.BigOperators.Group.List.Basic
import Varve.Lib.Bytes

/-!
# Texts

Strings are given as their characters.
-/

abbrev Text := List Char

instance : LawfulBEq Text := inferInstance

namespace Text

def utf8 (t : Text) : Bytes := t.flatMap String.utf8EncodeChar

def len (t : Text) : Nat := (t.map Char.utf8Size).sum

@[simp] theorem length_utf8 (t : Text) : (utf8 t).length = len t := by
  induction t with
  | nil => rfl
  | cons c t ih => simp_all [utf8, len]

@[simp] theorem len_append (s t : Text) : len (s ++ t) = len s + len t := by
  simp [len]

@[simp] theorem len_nil : len [] = 0 := rfl

@[simp] theorem len_cons (c : Char) (t : Text) : len (c :: t) = c.utf8Size + len t := by
  simp [len]

def backslash : Char := Char.ofNat 92

def isAsciiHexdigit (c : Char) : Bool :=
  c.isDigit || (decide ('a' ≤ c) && decide (c ≤ 'f')) || (decide ('A' ≤ c) && decide (c ≤ 'F'))

def toHex (bytes : Bytes) : Text :=
  bytes.flatMap fun b => [Nat.digitChar (b.toNat / 16), Nat.digitChar (b.toNat % 16)]

theorem length_toHex : (toHex bytes).length = 2 * bytes.length := by
  induction bytes with
  | nil => rfl
  | cons b bytes ih => simp_all [toHex, Nat.mul_add]

theorem digitChar_hex : ∀ n < 16, isAsciiHexdigit (Nat.digitChar n) = true ∧
    (Nat.digitChar n).isUpper = false ∧ Nat.digitChar n ≠ '.' ∧ Nat.digitChar n ≠ backslash := by
  decide

theorem digitChar_inj : ∀ m < 16, ∀ n < 16, Nat.digitChar m = Nat.digitChar n → m = n := by
  decide

theorem mem_toHex (h : c ∈ toHex bytes) : isAsciiHexdigit c = true ∧ c.isUpper = false ∧
    c ≠ '.' ∧ c ≠ backslash := by
  obtain ⟨b, -, h⟩ := List.mem_flatMap.mp h
  have hb := b.toNat_lt
  rcases List.mem_pair.mp h with rfl | rfl
  · exact digitChar_hex _ (by omega)
  · exact digitChar_hex _ (by omega)

theorem toHex_injective : Function.Injective toHex := by
  intro a b h
  induction a generalizing b with
  | nil =>
    cases b with
    | nil => rfl
    | cons y b => cases h
  | cons x a ih =>
    cases b with
    | nil => cases h
    | cons y b =>
      have hx := x.toNat_lt
      have hy := y.toNat_lt
      simp only [toHex, List.flatMap_cons, List.cons_append, List.nil_append,
        List.cons.injEq] at h
      obtain ⟨hhigh, hlow, hrest⟩ := h
      have hhigh := digitChar_inj _ (by omega) _ (by omega) hhigh
      have hlow := digitChar_inj _ (by omega) _ (by omega) hlow
      have hxy : x = y := UInt8.toNat_inj.mp (by omega)
      rw [hxy, ih hrest]

end Text
