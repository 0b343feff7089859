import Mathlib
import Varve.Lib.Json

/-!
# Reading JSON text back

A string, a number or an object of strings is found again at the front of any text it starts.
-/

namespace Json

open Text (backslash)

def hexValue (c : Char) : Nat := if c.isDigit then c.toNat - 48 else c.toNat - 87

def readEscape : Text → Option (Char × Text)
  | [] => none
  | c :: rest =>
    if c ≠ backslash then some (c, rest) else
    match rest with
    | 'b' :: rest => some (Char.ofNat 8, rest)
    | 't' :: rest => some (Char.ofNat 9, rest)
    | 'n' :: rest => some (Char.ofNat 10, rest)
    | 'f' :: rest => some (Char.ofNat 12, rest)
    | 'r' :: rest => some (Char.ofNat 13, rest)
    | 'u' :: _ :: _ :: a :: b :: rest => some (Char.ofNat (16 * hexValue a + hexValue b), rest)
    | c :: rest => some (c, rest)
    | [] => none

theorem hexValue_digitChar (h : n < 16) : hexValue (Nat.digitChar n) = n := by
  interval_cases n <;> rfl

theorem readEscape_escape (c : Char) (x : Text) : readEscape (escape c ++ x) = some (c, x) := by
  have hof : ∀ n, c.toNat = n → Char.ofNat n = c := by
    rintro n rfl
    exact Char.ofNat_toNat c
  unfold escape
  split_ifs with h1 h2 h3 h4 h5 h6 h7
  · rcases h1 with rfl | rfl <;> rfl
  · simpa [readEscape] using hof 8 h2
  · simpa [readEscape] using hof 9 h3
  · simpa [readEscape] using hof 10 h4
  · simpa [readEscape] using hof 12 h5
  · simpa [readEscape] using hof 13 h6
  · have hv : 16 * (c.toNat / 16) + c.toNat % 16 = c.toNat := Nat.div_add_mod _ _
    simp [readEscape, hexValue_digitChar (show c.toNat / 16 < 16 by omega),
      hexValue_digitChar (show c.toNat % 16 < 16 by omega), hof _ hv.symm]
  · simp [readEscape, not_or.mp h1]

theorem escape_append_inj (h : escape c ++ x = escape d ++ y) : c = d ∧ x = y := by
  have hr := congrArg readEscape h
  rw [readEscape_escape, readEscape_escape] at hr
  simpa using hr

theorem escape_ne (c : Char) (x y : Text) : escape c ++ x ≠ '"' :: y := by
  have hb : backslash ≠ '"' := by decide
  unfold escape
  split_ifs with h1
  all_goals simp [hb]
  exact fun he => absurd (.inl he) h1

theorem content_append_inj {s t x y : Text}
    (h : s.flatMap escape ++ '"' :: x = t.flatMap escape ++ '"' :: y) : s = t ∧ x = y := by
  induction s generalizing t with
  | nil =>
    cases t with
    | nil => simpa using h
    | cons d t =>
      rw [List.flatMap_cons, List.append_assoc] at h
      exact absurd h.symm (escape_ne _ _ _)
  | cons c s ih =>
    cases t with
    | nil =>
      rw [List.flatMap_cons, List.append_assoc] at h
      exact absurd h (escape_ne _ _ _)
    | cons d t =>
      rw [List.flatMap_cons, List.flatMap_cons, List.append_assoc, List.append_assoc] at h
      obtain ⟨hc, hrest⟩ := escape_append_inj h
      obtain ⟨ht, hx⟩ := ih hrest
      exact ⟨by rw [hc, ht], hx⟩

theorem string_append_inj {s t x y : Text} (h : string s ++ x = string t ++ y) : s = t ∧ x = y := by
  simp only [string, List.cons_append, List.append_assoc, List.nil_append, List.cons.injEq,
    true_and] at h
  exact content_append_inj h

theorem nat_injective (h : nat m = nat n) : m = n := by
  have := congrArg (Nat.ofDigitChars 10 · 0) h
  simpa [nat] using this

theorem isDigit_of_mem_nat (h : c ∈ nat n) : c.isDigit = true :=
  Nat.isDigit_of_mem_toDigits (by decide) (by decide) h

theorem int_injective {a b : Int} (h : int a = int b) : a = b := by
  have hminus : ∀ {m n : Nat}, nat m ≠ '-' :: nat n := fun {m n} he => by
    have hm : '-' ∈ nat m := by simp [he]
    cases isDigit_of_mem_nat hm
  cases a with
  | ofNat m =>
    cases b with
    | ofNat n => rw [nat_injective h]
    | negSucc n => exact absurd h hminus
  | negSucc m =>
    cases b with
    | ofNat n => exact absurd h.symm hminus
    | negSucc n => rw [Nat.succ_injective (nat_injective (List.cons.inj h).2)]

theorem comma_notMem_int (a : Int) : ',' ∉ int a := by
  have hnat : ∀ n, ',' ∉ nat n := fun n hn => by cases isDigit_of_mem_nat hn
  cases a with
  | ofNat n => exact hnat n
  | negSucc n =>
    intro hm
    rcases List.mem_cons.mp hm with he | hm
    · cases he
    · exact hnat _ hm

theorem append_cons_inj {α : Type} {l m x y : List α} {a : α} (hl : a ∉ l) (hm : a ∉ m)
    (h : l ++ a :: x = m ++ a :: y) : l = m ∧ x = y := by
  induction l generalizing m with
  | nil =>
    cases m with
    | nil => exact ⟨rfl, (List.cons.inj h).2⟩
    | cons b m => exact absurd ((List.cons.inj h).1 ▸ List.mem_cons_self) hm
  | cons b l ih =>
    cases m with
    | nil => exact absurd ((List.cons.inj h).1 ▸ List.mem_cons_self) hl
    | cons c m =>
      simp only [List.cons_append, List.cons.injEq] at h
      obtain ⟨rfl, h⟩ := h
      simp only [List.mem_cons, not_or] at hl hm
      obtain ⟨rfl, rfl⟩ := ih hl.2 hm.2 h
      exact ⟨rfl, rfl⟩

theorem int_append_inj {a b : Int} {x y : Text} (h : int a ++ ',' :: x = int b ++ ',' :: y) :
    a = b ∧ x = y := by
  obtain ⟨hi, hx⟩ := append_cons_inj (comma_notMem_int a) (comma_notMem_int b) h
  exact ⟨int_injective hi, hx⟩

theorem field_append_inj {k l v w x y : Text}
    (h : field k (string v) ++ x = field l (string w) ++ y) : k = l ∧ v = w ∧ x = y := by
  simp only [field, List.append_assoc] at h
  obtain ⟨hk, hrest⟩ := string_append_inj h
  obtain ⟨hv, hx⟩ := string_append_inj (List.cons.inj hrest).2
  exact ⟨hk, hv, hx⟩

theorem strings_append_inj {l m : List (Text × Text)} {x y : Text} {brace : Char}
    (hq : brace ≠ '"') (hb : brace ≠ ',')
    (h : ((l.map fun p => field p.1 (string p.2)).intersperse [',']).flatten ++ brace :: x =
      ((m.map fun p => field p.1 (string p.2)).intersperse [',']).flatten ++ brace :: y) :
    l = m ∧ x = y := by
  induction l generalizing m with
  | nil =>
    cases m with
    | nil => simpa using h
    | cons q m => cases m <;> simp [field, string, hq] at h
  | cons p l ih =>
    cases m with
    | nil => cases l <;> simp [field, string, Ne.symm hq] at h
    | cons q m =>
      cases l with
      | nil =>
        cases m with
        | nil =>
          simp only [List.map_cons, List.map_nil, List.intersperse_singleton,
            List.flatten_singleton] at h
          obtain ⟨hk, hv, h⟩ := field_append_inj h
          simp only [List.cons.injEq, true_and] at h
          exact ⟨by rw [Prod.ext hk hv], h⟩
        | cons q' m =>
          simp only [List.map_cons, List.map_nil, List.intersperse_singleton,
            List.intersperse_cons_cons, List.flatten_cons, List.append_assoc] at h
          obtain ⟨-, -, h⟩ := field_append_inj h
          simp [hb] at h
      | cons p' l =>
        cases m with
        | nil =>
          simp only [List.map_cons, List.map_nil, List.intersperse_singleton,
            List.intersperse_cons_cons, List.flatten_cons, List.append_assoc] at h
          obtain ⟨-, -, h⟩ := field_append_inj h
          simp [Ne.symm hb] at h
        | cons q' m =>
          simp only [List.map_cons, List.intersperse_cons_cons, List.flatten_cons,
            List.append_assoc] at h
          obtain ⟨hk, hv, h⟩ := field_append_inj h
          simp only [List.cons_append, List.nil_append, List.cons.injEq, true_and] at h
          obtain ⟨ht, hx⟩ := ih (m := q' :: m) (by simpa using h)
          exact ⟨by rw [Prod.ext hk hv, ht], hx⟩

end Json
