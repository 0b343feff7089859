import Mathlib.Algebra.Order.Ring.Nat
import Mathlib.Tactic.Ring

/-!
# Bytes and little-endian words

Byte strings are lists.
-/

abbrev Bytes := List UInt8

namespace Bytes

/-- The low `w` bytes of `n`. -/
def le : Nat → Nat → Bytes
  | 0, _ => []
  | w + 1, n => UInt8.ofNat n :: le w (n / 256)

def leValue : Bytes → Nat
  | [] => 0
  | b :: bs => b.toNat + 256 * leValue bs

def le64 (n : Nat) : Bytes := le 8 n

def word (bytes : Bytes) (offset : Nat) : Nat := leValue ((bytes.drop offset).take 8)

@[simp] theorem length_le : (le w n).length = w := by
  induction w generalizing n with
  | zero => rfl
  | succ w ih => simp [le, ih]

@[simp] theorem length_le64 : (le64 n).length = 8 := length_le

theorem leValue_le : leValue (le w n) = n % 256 ^ w := by
  induction w generalizing n with
  | zero => simp [le, leValue, Nat.mod_one]
  | succ w ih =>
    have hpow : 256 ^ (w + 1) = 2 ^ 8 * 256 ^ w := pow_succ' 256 w
    rw [le, leValue, ih, UInt8.toNat_ofNat', hpow, Nat.mod_mul]
    norm_num

theorem leValue_le64 (h : n < 2 ^ 64) : leValue (le64 n) = n := by
  rw [le64, leValue_le]
  exact Nat.mod_eq_of_lt (by simpa using h)

theorem le_leValue (bytes : Bytes) : le bytes.length (leValue bytes) = bytes := by
  induction bytes with
  | nil => rfl
  | cons b bs ih =>
    have hlow : UInt8.ofNat (b.toNat + 256 * leValue bs) = b := by
      refine UInt8.toNat_inj.mp ?_
      have := b.toNat_lt
      rw [UInt8.toNat_ofNat']
      omega
    have hhigh : (b.toNat + 256 * leValue bs) / 256 = leValue bs := by
      have := b.toNat_lt
      omega
    rw [List.length_cons, le, leValue, hlow, hhigh, ih]

theorem le64_word (h : k + 8 ≤ bytes.length) : le64 (word bytes k) = (bytes.drop k).take 8 := by
  have hlen : ((bytes.drop k).take 8).length = 8 := by
    rw [List.length_take, List.length_drop]
    omega
  have hle := le_leValue ((bytes.drop k).take 8)
  rwa [hlen] at hle

theorem word_append_right : word (a ++ b) (a.length + k) = word b k := by
  unfold word
  rw [← List.drop_drop, List.drop_left]

theorem word_append_of_length (h : a.length = n) : word (a ++ b) (n + k) = word b k := by
  subst h
  exact word_append_right

theorem word_le64 (h : n < 2 ^ 64) : word (le64 n ++ rest) 0 = n := by
  unfold word
  rw [List.drop_zero, List.take_left' length_le64, leValue_le64 h]

end Bytes
