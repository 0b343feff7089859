import Varve.Engine.Catalog
import Varve.Lib.JsonRead

/-!
# The literals of a `CALL`

`parse_call_literals` in `control.rs`: a scanner over the bytes of the arguments.
-/

namespace Varve.Control

open Result (ensure bind_ok ensure_bind)
open Text (utf8)
open Engine (splitOnce digitsValue parseI64 context i64Min i64Max isAsciiLowercase)

inductive Literal where
  | string (value : Text)
  | integer (value : Int)
deriving DecidableEq

/-- `char::is_whitespace`. -/
def isWhitespace (c : Char) : Bool :=
  (9 ≤ c.toNat && c.toNat ≤ 13) || (0x2000 ≤ c.toNat && c.toNat ≤ 0x200A) ||
    [0x20, 0x85, 0xA0, 0x1680, 0x2028, 0x2029, 0x202F, 0x205F, 0x3000].contains c.toNat

def trim (t : Text) : Text := ((t.dropWhile isWhitespace).reverse.dropWhile isWhitespace).reverse

def byteOf (c : Char) : UInt8 := (String.utf8EncodeChar c).headD 0

def quote : UInt8 := 0x27

def apostrophe : Char := Char.ofNat 39

def isAsciiWhitespace (b : UInt8) : Bool :=
  b = 0x20 || b = 0x09 || b = 0x0A || b = 0x0C || b = 0x0D

def isAsciiDigit (b : UInt8) : Bool := 0x30 ≤ b && b ≤ 0x39

-- The scanner

def skipWhitespace (rest : Text) : Text := rest.dropWhile fun c => isAsciiWhitespace (byteOf c)

def stringLiteral (value : Text) : Text → Except String (Text × Text)
  | [] => .error "unterminated string literal"
  | c :: rest =>
    if byteOf c = quote then
      match rest with
      | [] => .ok (value, [])
      | d :: more =>
        if byteOf d = quote then stringLiteral (value ++ [apostrophe]) more
        else .ok (value, d :: more)
    else stringLiteral (value ++ [c]) rest

def signOf : Text → Text × Text
  | [] => ([], [])
  | c :: rest => if byteOf c = 0x2D then ([c], rest) else ([], c :: rest)

def isDigitByte (c : Char) : Bool := isAsciiDigit (byteOf c)

def integerLiteral (rest : Text) : Except String (Int × Text) := do
  let sign := (signOf rest).1
  let digits := (signOf rest).2.takeWhile isDigitByte
  ensure (sign ++ digits ≠ [] ∧ sign ++ digits ≠ ['-'])
    "only string and integer literals are allowed"
  let value ← context (parseI64 (sign ++ digits))
    (if sign = [] then "number too large to fit in target type"
      else "number too small to fit in target type")
  .ok (value, (signOf rest).2.dropWhile isDigitByte)

def literal (c : Char) (more : Text) : Except String (Literal × Text) :=
  if byteOf c = quote then do
    let (value, rest) ← stringLiteral [] more
    .ok (.string value, rest)
  else do
    let (value, rest) ← integerLiteral (c :: more)
    .ok (.integer value, rest)

/-- After a literal: the end, or a comma with more behind it. -/
def separator (rest : Text) : Except String Text :=
  match skipWhitespace rest with
  | [] => .ok []
  | c :: more => do
    ensure (byteOf c = 0x2C) "only literal arguments are allowed"
    ensure (more ≠ []) "trailing comma in CALL"
    .ok more

def argument (c : Char) (more : Text) : Except String (Literal × Text) := do
  let (value, rest) ← literal c more
  let next ← separator rest
  .ok (value, next)

theorem length_skipWhitespace (rest : Text) : (skipWhitespace rest).length ≤ rest.length :=
  (List.dropWhile_suffix _).length_le

theorem length_stringLiteral (h : stringLiteral value rest = .ok (v, after)) :
    after.length ≤ rest.length := by
  fun_induction stringLiteral value rest with
  | case1 => cases h
  | case2 =>
    cases h
    exact Nat.zero_le _
  | case3 value c hc d more hd ih =>
    have := ih h
    simp only [List.length_cons]
    omega
  | case4 =>
    cases h
    exact Nat.le_succ _
  | case5 value c rest hc ih => exact (ih h).trans (Nat.le_succ _)

theorem length_integerLiteral (h : integerLiteral (c :: more) = .ok (v, after)) :
    after.length ≤ more.length := by
  obtain ⟨hnumber, h⟩ := ensure_bind.mp h
  obtain ⟨value, -, h⟩ := bind_ok.mp h
  cases h
  by_cases hc : byteOf c = 0x2D
  · simp only [signOf, hc, if_true]
    exact (List.dropWhile_suffix _).length_le
  · simp only [signOf, hc, if_false, List.nil_append] at hnumber ⊢
    by_cases hd : isDigitByte c = true
    · rw [List.dropWhile_cons_of_pos hd]
      exact (List.dropWhile_suffix _).length_le
    · exact absurd (List.takeWhile_cons_of_neg hd) hnumber.1

theorem length_literal (h : literal c more = .ok (v, after)) : after.length ≤ more.length := by
  unfold literal at h
  split at h
  · obtain ⟨⟨value, rest⟩, hs, h⟩ := bind_ok.mp h
    cases h
    exact length_stringLiteral hs
  · obtain ⟨⟨value, rest⟩, hs, h⟩ := bind_ok.mp h
    cases h
    exact length_integerLiteral hs

theorem length_separator (h : separator rest = .ok next) : next.length ≤ rest.length := by
  have hskip := length_skipWhitespace rest
  unfold separator at h
  split at h
  · cases h
    exact Nat.zero_le _
  · rename_i c more hs
    simp only [ensure_bind] at h
    obtain ⟨-, -, h⟩ := h
    cases h
    rw [hs] at hskip
    exact (Nat.le_succ _).trans hskip

theorem length_argument (h : argument c more = .ok (v, next)) : next.length ≤ more.length := by
  obtain ⟨⟨value, rest⟩, hl, h⟩ := bind_ok.mp h
  obtain ⟨after, hs, h⟩ := bind_ok.mp h
  cases h
  exact (length_separator hs).trans (length_literal hl)

def literals (args : List Literal) (rest : Text) : Except String (List Literal) :=
  match _hs : skipWhitespace rest with
  | [] => .ok args
  | c :: more =>
    match _ha : argument c more with
    | .error e => .error e
    | .ok (value, next) => literals (args ++ [value]) next
termination_by rest.length
decreasing_by
  have hlength := length_skipWhitespace rest
  have hnext := length_argument _ha
  rw [_hs] at hlength
  exact Nat.lt_of_le_of_lt hnext hlength

def parseCallLiterals (sql : Text) : Except String (Text × List Literal) := do
  let body ← context ("CALL ".toList.isPrefixOf? (trim sql)) "invalid CALL statement"
  let (name, rest) := splitOnce '(' body
  let rest ← context rest "CALL requires parentheses"
  ensure (body.getLast? = some ')') "invalid CALL statement"
  let function := (trim name).map Char.toLower
  ensure ((utf8 function).all fun b => (0x61 ≤ b && b ≤ 0x7A) || b = 0x5F)
    "invalid control function name"
  let args ← literals [] rest.dropLast
  .ok (function, args)

def doubled (value : Text) : Text :=
  value.flatMap fun c => if c = apostrophe then [c, c] else [c]

def Literal.render : Literal → Text
  | .string value => apostrophe :: (doubled value ++ [apostrophe])
  | .integer value => Json.int value

/-- A literal with blanks around it; an integer is an `i64`. -/
structure Argument where
  before : Text
  literal : Literal
  after : Text
  blank : ∀ c ∈ before ++ after, isAsciiWhitespace (byteOf c) = true
  fits : ∀ i, literal = .integer i → i64Min ≤ i ∧ i ≤ i64Max

structure FunctionName where
  text : Text
  lower : ∀ c ∈ text, isAsciiLowercase c = true ∨ c = '_'

def Argument.render (a : Argument) : Text := a.before ++ (a.literal.render ++ a.after)

def renderArguments (args : List Argument) : Text :=
  ((args.map Argument.render).intersperse [',']).flatten

def renderCall (f : FunctionName) (args : List Argument) : Text :=
  "CALL ".toList ++ (f.text ++ '(' :: (renderArguments args ++ [')']))

theorem byteOf_eq {b : UInt8} (hb : b.toNat < 128) : byteOf c = b ↔ c.toNat = b.toNat := by
  have hlead {n : Nat} (hlow : 128 ≤ n) (hhigh : n < 256) (rest : List UInt8)
      (hc : 128 ≤ c.toNat) : (UInt8.ofNat n :: rest).headD 0 = b ↔ c.toNat = b.toNat := by
    rw [List.headD_cons, ← UInt8.toNat_inj, UInt8.toNat_ofNat_of_lt' hhigh]
    omega
  unfold byteOf String.utf8EncodeChar
  show (if c.toNat ≤ 127 then _ else _ : List UInt8).headD 0 = b ↔ _
  split
  · have hc : c.val.toNat < 256 := Nat.lt_of_le_of_lt ‹c.toNat ≤ 127› (by decide)
    rw [List.headD_cons, ← UInt8.toNat_inj, UInt8.toNat_ofNat_of_lt' hc]
    rfl
  · split
    · exact hlead (by omega) (by omega) _ (by omega)
    · split
      · exact hlead (by omega) (by omega) _ (by omega)
      · exact hlead (by omega) (by omega) _ (by omega)

theorem byteOf_quote : byteOf c = quote ↔ c = apostrophe := by
  rw [byteOf_eq (by decide)]
  exact ⟨fun h => Char.toNat_inj.mp h, fun h => h ▸ rfl⟩

theorem isDigitByte_eq (c : Char) : isDigitByte c = c.isDigit := by
  rw [Bool.eq_iff_iff]
  simp only [isDigitByte, isAsciiDigit, Char.isDigit, Bool.and_eq_true, decide_eq_true_eq,
    UInt8.le_iff_toNat_le, UInt32.le_iff_toNat_le, ge_iff_le]
  constructor
  · rintro ⟨hlow, hhigh⟩
    have hc := (byteOf_eq (c := c) (Nat.lt_of_le_of_lt hhigh (by decide))).mp rfl
    rw [← hc] at hlow hhigh
    exact ⟨hlow, hhigh⟩
  · rintro ⟨hlow, hhigh⟩
    have hsmall : c.toNat < 128 := Nat.lt_of_le_of_lt hhigh (by decide)
    have hb : (UInt8.ofNat c.toNat).toNat = c.toNat :=
      UInt8.toNat_ofNat_of_lt' (hsmall.trans (by decide))
    rw [(byteOf_eq (b := UInt8.ofNat c.toNat) (by rw [hb]; exact hsmall)).mpr hb.symm, hb]
    exact ⟨hlow, hhigh⟩

theorem le_of_isDigit (h : Char.isDigit c = true) : 48 ≤ c.toNat := by
  simp only [Char.isDigit, Bool.and_eq_true, decide_eq_true_eq, ge_iff_le,
    UInt32.le_iff_toNat_le] at h
  exact h.1

theorem not_blank_of_toNat (h : 32 < c.toNat) : isAsciiWhitespace (byteOf c) = false := by
  have hne {b : UInt8} (hb : b.toNat ≤ 32) : byteOf c ≠ b := by
    intro he
    have := (byteOf_eq (by omega)).mp he
    omega
  simp [isAsciiWhitespace, hne (b := 0x20) (by decide), hne (b := 0x09) (by decide),
    hne (b := 0x0A) (by decide), hne (b := 0x0C) (by decide), hne (b := 0x0D) (by decide)]

-- Literals

def Ended (rest : Text) : Prop := ∀ c ∈ rest.head?, c ≠ apostrophe ∧ c.isDigit = false

theorem ended_nil : Ended [] := by
  rintro c ⟨⟩

theorem stringLiteral_quotes (acc rest : Text) :
    stringLiteral acc (apostrophe :: apostrophe :: rest) =
      stringLiteral (acc ++ [apostrophe]) rest := by
  rw [stringLiteral, if_pos (byteOf_quote.mpr rfl), if_pos (byteOf_quote.mpr rfl)]

theorem stringLiteral_cons (acc rest : Text) (h : c ≠ apostrophe) :
    stringLiteral acc (c :: rest) = stringLiteral (acc ++ [c]) rest := by
  rw [stringLiteral.eq_def]
  exact if_neg fun hc => h (byteOf_quote.mp hc)

theorem stringLiteral_doubled (acc value : Text) (h : Ended rest) :
    stringLiteral acc (doubled value ++ apostrophe :: rest) = .ok (acc ++ value, rest) := by
  induction value generalizing acc with
  | nil =>
    cases rest with
    | nil => simp [doubled, stringLiteral, byteOf_quote.mpr rfl]
    | cons d more =>
      have hd : byteOf d ≠ quote := fun hd => (h d rfl).1 (byteOf_quote.mp hd)
      simp [doubled, stringLiteral, byteOf_quote.mpr rfl, hd]
  | cons c value ih =>
    by_cases hc : c = apostrophe
    · subst hc
      have hsplit : doubled (apostrophe :: value) = apostrophe :: apostrophe :: doubled value := by
        simp [doubled]
      rw [hsplit, List.cons_append, List.cons_append, stringLiteral_quotes, ih,
        List.append_assoc, List.singleton_append]
    · have hsplit : doubled (c :: value) = c :: doubled value := by
        simp [doubled, hc]
      rw [hsplit, List.cons_append, stringLiteral_cons _ _ hc, ih, List.append_assoc,
        List.singleton_append]

theorem digitsValue_nat (n : Nat) : digitsValue (Json.nat n) = n := by
  calc digitsValue (Json.nat n)
    _ = Nat.ofDigitChars 10 (Json.nat n) 0 := by
      simp only [digitsValue, Nat.ofDigitChars, Nat.mul_comm]
    _ = n := Nat.ofDigitChars_toDigits (by decide) (by decide)

theorem takeWhile_nat (n : Nat) (h : Ended rest) :
    (Json.nat n ++ rest).takeWhile isDigitByte = Json.nat n := by
  rw [List.takeWhile_append_of_pos fun c hc => by
    rw [isDigitByte_eq]
    exact Json.isDigit_of_mem_nat hc]
  cases rest with
  | nil => simp
  | cons d more =>
    have hd : isDigitByte d ≠ true := by simp [isDigitByte_eq, (h d rfl).2]
    rw [List.takeWhile_cons_of_neg hd, List.append_nil]

theorem dropWhile_nat (n : Nat) (h : Ended rest) :
    (Json.nat n ++ rest).dropWhile isDigitByte = rest := by
  rw [List.dropWhile_append_of_pos fun c hc => by
    rw [isDigitByte_eq]
    exact Json.isDigit_of_mem_nat hc]
  cases rest with
  | nil => rfl
  | cons d more =>
    have hd : isDigitByte d ≠ true := by simp [isDigitByte_eq, (h d rfl).2]
    rw [List.dropWhile_cons_of_neg hd]

theorem nat_cons (n : Nat) : ∃ d ds, Json.nat n = d :: ds ∧ d.isDigit = true := by
  cases h : Json.nat n with
  | nil => simp [Json.nat] at h
  | cons d ds => exact ⟨d, ds, rfl, Json.isDigit_of_mem_nat (h ▸ List.mem_cons_self)⟩

theorem parseI64_int {i : Int} (h : i64Min ≤ i ∧ i ≤ i64Max) : parseI64 (Json.int i) = some i := by
  have hdigits (n : Nat) : (Json.nat n).all Char.isDigit = true :=
    List.all_eq_true.mpr fun c hc => Json.isDigit_of_mem_nat hc
  cases i with
  | ofNat n =>
    obtain ⟨d, ds, hn, hd⟩ := nat_cons n
    have hminus : d ≠ '-' := by
      rintro rfl
      cases hd
    have hplus : d ≠ '+' := by
      rintro rfl
      cases hd
    have hall := hdigits n
    have hvalue := digitsValue_nat n
    rw [hn] at hall hvalue
    simp only [Json.int, hn]
    unfold parseI64
    split
    rename_i negative digits hm
    split at hm
    · simp_all
    · simp_all
    · cases hm
      simp only [hvalue, hall, Bool.false_eq_true, if_false]
      exact if_pos ⟨List.cons_ne_nil _ _, trivial, h⟩
  | negSucc n =>
    obtain ⟨d, ds, hn, hd⟩ := nat_cons (n + 1)
    have hall := hdigits (n + 1)
    have hvalue := digitsValue_nat (n + 1)
    simp only [Json.int]
    unfold parseI64
    simp only [hall, hvalue, if_true]
    exact if_pos ⟨by simp [hn], trivial, h⟩

theorem signOf_nat (n : Nat) (rest : Text) :
    signOf (Json.nat n ++ rest) = ([], Json.nat n ++ rest) := by
  obtain ⟨d, ds, hn, hd⟩ := nat_cons n
  have hne : byteOf d ≠ 0x2D := by
    intro he
    rw [← isDigitByte_eq, isDigitByte, he] at hd
    cases hd
  rw [hn, List.cons_append, signOf, if_neg hne]

theorem integerLiteral_int {i : Int} (hi : i64Min ≤ i ∧ i ≤ i64Max) (h : Ended rest) :
    integerLiteral (Json.int i ++ rest) = .ok (i, rest) := by
  have hparse := parseI64_int hi
  cases i with
  | ofNat n =>
    obtain ⟨d, ds, hn, hd⟩ := nat_cons n
    have hminus : Json.nat n ≠ ['-'] := by
      intro he
      rw [hn] at he
      cases he
      cases hd
    simp only [Json.int] at hparse
    simp only [integerLiteral, Json.int, signOf_nat, takeWhile_nat n h, dropWhile_nat n h,
      List.nil_append, hparse]
    rw [Result.ensure_pos ⟨by simp [hn], hminus⟩]
    rfl
  | negSucc n =>
    obtain ⟨d, ds, hn, hd⟩ := nat_cons (n + 1)
    have hsign : signOf ('-' :: (Json.nat (n + 1) ++ rest)) =
        (['-'], Json.nat (n + 1) ++ rest) := by
      rw [signOf, if_pos ((byteOf_eq (by decide)).mpr rfl)]
    simp only [Json.int] at hparse
    simp only [integerLiteral, Json.int, List.cons_append, hsign, takeWhile_nat _ h,
      dropWhile_nat _ h, List.nil_append, hparse]
    rw [Result.ensure_pos ⟨by simp, by simp [hn]⟩]
    rfl

-- Arguments

theorem skipWhitespace_blank {blank : Text}
    (hb : ∀ c ∈ blank, isAsciiWhitespace (byteOf c) = true) (rest : Text) :
    skipWhitespace (blank ++ rest) = skipWhitespace rest :=
  List.dropWhile_append_of_pos hb

theorem skipWhitespace_cons (h : 32 < c.toNat) (rest : Text) :
    skipWhitespace (c :: rest) = c :: rest :=
  List.dropWhile_cons_of_neg (by simp [not_blank_of_toNat h])

theorem ended_blank {blank : Text} (hb : ∀ c ∈ blank, isAsciiWhitespace (byteOf c) = true)
    (h : Ended rest) : Ended (blank ++ rest) := by
  cases blank with
  | nil => exact h
  | cons d blank =>
    rintro c ⟨⟩
    have hd := hb d List.mem_cons_self
    have hle : ¬32 < d.toNat := fun hlt => by simp [not_blank_of_toNat hlt] at hd
    refine ⟨fun he => hle (he ▸ by decide), ?_⟩
    cases hdigit : d.isDigit with
    | false => rfl
    | true => exact absurd (Nat.lt_of_lt_of_le (by decide) (le_of_isDigit hdigit)) hle

theorem int_cons (i : Int) (rest : Text) :
    ∃ c more, Json.int i ++ rest = c :: more ∧ 45 ≤ c.toNat := by
  cases i with
  | ofNat n =>
    obtain ⟨d, ds, hn, hd⟩ := nat_cons n
    exact ⟨d, ds ++ rest, by rw [Json.int, hn, List.cons_append],
      Nat.le_trans (by decide) (le_of_isDigit hd)⟩
  | negSucc n => exact ⟨'-', Json.nat (n + 1) ++ rest, rfl, by decide⟩

theorem literal_render (l : Literal) (hfits : ∀ i, l = .integer i → i64Min ≤ i ∧ i ≤ i64Max)
    (h : Ended rest) :
    ∃ c more, l.render ++ rest = c :: more ∧ 32 < c.toNat ∧ literal c more = .ok (l, rest) := by
  cases l with
  | string value =>
    refine ⟨apostrophe, doubled value ++ apostrophe :: rest, ?_, by decide, ?_⟩
    · simp [Literal.render]
    · rw [literal, if_pos (byteOf_quote.mpr rfl), stringLiteral_doubled _ _ h]
      rfl
  | integer i =>
    have hread := integerLiteral_int (hfits i rfl) h
    obtain ⟨c, more, hc, hlt⟩ := int_cons i rest
    have hq : byteOf c ≠ quote := fun hq => by
      rw [byteOf_quote.mp hq] at hlt
      exact absurd hlt (by decide)
    refine ⟨c, more, hc, by omega, ?_⟩
    rw [literal, if_neg hq, ← hc, hread]
    rfl

theorem separator_end {blank : Text} (hb : ∀ c ∈ blank, isAsciiWhitespace (byteOf c) = true) :
    separator blank = .ok [] := by
  have hskip := skipWhitespace_blank hb []
  rw [List.append_nil] at hskip
  rw [separator, hskip]
  rfl

theorem separator_comma {blank more : Text}
    (hb : ∀ c ∈ blank, isAsciiWhitespace (byteOf c) = true) (hm : more ≠ []) :
    separator (blank ++ ',' :: more) = .ok more := by
  rw [separator, skipWhitespace_blank hb, skipWhitespace_cons (by decide)]
  dsimp only
  rw [Result.ensure_pos ((byteOf_eq (by decide)).mpr rfl), Result.ensure_pos hm]
  rfl

theorem literals_nil (hs : skipWhitespace rest = []) : literals args rest = .ok args := by
  rw [literals]
  split
  · rfl
  · rename_i c more h
    rw [hs] at h
    cases h

theorem literals_cons (hs : skipWhitespace rest = c :: more)
    (ha : argument c more = .ok (value, next)) :
    literals args rest = literals (args ++ [value]) next := by
  rw [literals]
  split
  · rename_i h
    rw [hs] at h
    cases h
  · rename_i c' more' h
    rw [hs] at h
    cases h
    split
    · rename_i e h'
      rw [ha] at h'
      cases h'
    · rename_i value' next' h'
      rw [ha] at h'
      cases h'
      rfl

theorem literals_argument (a : Argument) (h : Ended rest)
    (hs : separator (a.after ++ rest) = .ok next) (args : List Literal) :
    literals args (a.render ++ rest) = literals (args ++ [a.literal]) next := by
  have hbefore : ∀ c ∈ a.before, isAsciiWhitespace (byteOf c) = true :=
    fun c hc => a.blank c (List.mem_append_left _ hc)
  have hafter : ∀ c ∈ a.after, isAsciiWhitespace (byteOf c) = true :=
    fun c hc => a.blank c (List.mem_append_right _ hc)
  obtain ⟨c, more, hc, hlt, hl⟩ := literal_render a.literal a.fits (ended_blank hafter h)
  have hskip : skipWhitespace (a.render ++ rest) = c :: more := by
    rw [Argument.render, List.append_assoc, List.append_assoc, skipWhitespace_blank hbefore, hc,
      skipWhitespace_cons hlt]
  have hargument : argument c more = .ok (a.literal, next) := by
    rw [argument, hl, Result.ok_bind]
    dsimp only
    rw [hs]
    rfl
  exact literals_cons hskip hargument

theorem renderArguments_cons (a b : Argument) (args : List Argument) :
    renderArguments (a :: b :: args) = a.render ++ ',' :: renderArguments (b :: args) := by
  simp [renderArguments]

theorem renderArguments_ne_nil (a : Argument) (args : List Argument) :
    renderArguments (a :: args) ≠ [] := by
  obtain ⟨c, more, hc, -⟩ := literal_render a.literal a.fits ended_nil
  rw [List.append_nil] at hc
  cases args with
  | nil => simp [renderArguments, Argument.render, hc]
  | cons b args => simp [renderArguments, Argument.render, hc]

theorem literals_render (acc : List Literal) (args : List Argument) :
    literals acc (renderArguments args) = .ok (acc ++ args.map Argument.literal) := by
  induction args generalizing acc with
  | nil =>
    rw [literals_nil rfl, List.map_nil, List.append_nil]
  | cons a args ih =>
    have hafter : ∀ c ∈ a.after, isAsciiWhitespace (byteOf c) = true :=
      fun c hc => a.blank c (List.mem_append_right _ hc)
    cases args with
    | nil =>
      have hone : renderArguments [a] = a.render ++ [] := by simp [renderArguments]
      rw [hone, literals_argument a ended_nil
        (by rw [List.append_nil]; exact separator_end hafter), literals_nil rfl]
      rfl
    | cons b args =>
      rw [renderArguments_cons, literals_argument a (fun _ h => by cases h; decide)
        (separator_comma hafter (renderArguments_ne_nil b args)), ih, List.append_assoc]
      rfl

-- The whole call

theorem dropWhile_of_head {p : Char → Bool} {t : Text} (h : ∀ c ∈ t.head?, p c = false) :
    t.dropWhile p = t := by
  cases t with
  | nil => rfl
  | cons c t => exact List.dropWhile_cons_of_neg (by simp [h c rfl])

theorem trim_eq {t : Text} (hh : ∀ c ∈ t.head?, isWhitespace c = false)
    (hl : ∀ c ∈ t.getLast?, isWhitespace c = false) : trim t = t := by
  rw [trim, dropWhile_of_head hh, dropWhile_of_head (by rwa [List.head?_reverse]),
    List.reverse_reverse]

namespace FunctionName

variable (f : FunctionName) {c : Char}

theorem toNat_bounds (h : c ∈ f.text) : c.toNat = 95 ∨ 97 ≤ c.toNat ∧ c.toNat ≤ 122 := by
  rcases f.lower c h with hc | rfl
  · simp only [isAsciiLowercase, Bool.and_eq_true, decide_eq_true_eq] at hc
    exact .inr hc
  · exact .inl rfl

theorem not_whitespace (h : c ∈ f.text) : isWhitespace c = false := by
  have hb := f.toNat_bounds h
  simp [isWhitespace]
  omega

theorem trim_text : trim f.text = f.text :=
  trim_eq (fun _ h => f.not_whitespace (List.mem_of_mem_head? h))
    fun _ h => f.not_whitespace (List.mem_of_mem_getLast? h)

theorem toLower_text : f.text.map Char.toLower = f.text := by
  refine (List.map_congr_left fun c hc => ?_).trans (List.map_id' _)
  have hb := f.toNat_bounds hc
  have hupper : ¬(c.val ≥ 'A'.val ∧ c.val ≤ 'Z'.val) := by
    rintro ⟨-, hz⟩
    have hz : c.toNat ≤ 90 := UInt32.le_iff_toNat_le.mp hz
    omega
  exact dif_neg hupper

theorem bytes_text : (utf8 f.text).all (fun b => (0x61 ≤ b && b ≤ 0x7A) || b = 0x5F) = true := by
  refine List.all_eq_true.mpr fun b hb => ?_
  obtain ⟨c, hc, hb⟩ := List.mem_flatMap.mp hb
  have hbounds := f.toNat_bounds hc
  have hone : String.utf8EncodeChar c = [UInt8.ofNat c.toNat] :=
    if_pos (show c.toNat ≤ 127 by omega)
  rw [hone, List.mem_singleton] at hb
  have hvalue : b.toNat = c.toNat := by
    rw [hb, UInt8.toNat_ofNat_of_lt' (show c.toNat < 256 by omega)]
  simp only [Bool.or_eq_true, Bool.and_eq_true, decide_eq_true_eq, UInt8.le_iff_toNat_le,
    ← UInt8.toNat_inj, hvalue]
  exact hbounds.symm

end FunctionName

theorem splitOnce_call (f : FunctionName) (rest : Text) :
    splitOnce '(' (f.text ++ '(' :: rest) = (f.text, some rest) := by
  have hne : ∀ c ∈ f.text, decide (c ≠ '(') = true := by
    rintro c hc
    have hb := f.toNat_bounds hc
    refine decide_eq_true ?_
    rintro rfl
    rcases hb with hb | hb
    · cases hb
    · exact absurd hb.1 (by decide)
  rw [splitOnce, List.takeWhile_append_of_pos hne, List.dropWhile_append_of_pos hne]
  simp

/-- Reading a call gives back the arguments it was rendered from: what a string holds changes
neither their number nor their values. -/
theorem parseCallLiterals_render (f : FunctionName) (args : List Argument) :
    parseCallLiterals (renderCall f args) = .ok (f.text, args.map Argument.literal) := by
  have hconcat : (f.text ++ '(' :: renderArguments args) ++ [')'] =
      f.text ++ '(' :: (renderArguments args ++ [')']) := by simp
  have htrim : trim (renderCall f args) = renderCall f args := by
    refine trim_eq ?_ ?_
    · rintro c ⟨⟩
      decide
    · rw [renderCall, ← hconcat, ← List.append_assoc, List.getLast?_concat]
      rintro c ⟨⟩
      decide
  have hbody : "CALL ".toList.isPrefixOf? (renderCall f args) =
      some (f.text ++ '(' :: (renderArguments args ++ [')'])) := rfl
  have hlast : (f.text ++ '(' :: (renderArguments args ++ [')'])).getLast? = some ')' := by
    rw [← hconcat, List.getLast?_concat]
  rw [parseCallLiterals, htrim, hbody]
  simp only [context, Option.elim_some, Result.ok_bind, splitOnce_call, f.trim_text,
    f.toLower_text, hlast, f.bytes_text, Result.ensure_pos, List.dropLast_concat,
    literals_render, List.nil_append]

example : (parseCallLiterals (renderCall ⟨['f'], by simp [isAsciiLowercase]⟩
    [⟨[], .string "a',)(".toList, [], nofun, nofun⟩])).toOption =
    some (['f'], [.string "a',)(".toList]) := by
  decide +kernel

end Varve.Control
