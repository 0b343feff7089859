import Mathlib.Data.List.DropRight
import Varve.Lib.Text

/-!
# Lexical rules of SQL

How the database splits a text into tokens, by the rules of PostgreSQL.
-/

namespace Varve.Sql

variable {token : Option Token}

inductive Token where
  | word (text : Text)
  | quoted
  | semicolon
  | symbol (c : Char)
  | unterminated
deriving DecidableEq, Repr

def isSpace (c : Char) : Bool :=
  c == ' ' || c == '\t' || c == '\n' || c == '\r' || c == Char.ofNat 11 || c == Char.ofNat 12

def isTagStart (c : Char) : Bool := c.isAlpha || c == '_' || decide (128 ≤ c.toNat)

def isTagPart (c : Char) : Bool := isTagStart c || c.isDigit

def isNamePart (c : Char) : Bool := isTagPart c || c == '$'

-- What follows a quotation or a comment

def afterQuote (quote : Char) : Text → Option Text
  | [] => none
  | [c] => if c = quote then some [] else none
  | c :: d :: rest =>
    if c = quote then if d = quote then afterQuote quote rest else some (d :: rest)
    else afterQuote quote (d :: rest)

/-- In an `E` string a backslash takes the next character with it. -/
def afterEscaped : Text → Option Text
  | [] => none
  | [c] => if c = '\'' then some [] else none
  | c :: d :: rest =>
    if c = Text.backslash then afterEscaped rest
    else if c = '\'' then if d = '\'' then afterEscaped rest else some (d :: rest)
    else afterEscaped (d :: rest)

def afterLine (text : Text) : Text := text.dropWhile fun c => c != '\n' && c != '\r'

def afterComment (depth : Nat) : Text → Option Text
  | [] => none
  | [_] => none
  | c :: d :: rest =>
    if c = '/' ∧ d = '*' then afterComment (depth + 1) rest
    else if c = '*' ∧ d = '/' then if depth = 0 then some rest else afterComment (depth - 1) rest
    else afterComment depth (d :: rest)

def afterText (delimiter : Text) : Text → Option Text
  | [] => none
  | c :: rest =>
    if delimiter.isPrefixOf (c :: rest) then some ((c :: rest).drop delimiter.length)
    else afterText delimiter rest

/-- The delimiter a dollar sign opens, up to its own dollar sign. -/
def dollarTag (text : Text) : Option (Text × Text) :=
  let tag := text.takeWhile isTagPart
  match text.dropWhile isTagPart with
  | '$' :: content => if (tag.head?.all isTagStart) = true then some (tag, content) else none
  | _ => none

def Later (rest text : Text) : Prop := rest <:+ text ∧ rest.length < text.length

theorem later_cons (c : Char) (text : Text) : Later text (c :: text) :=
  ⟨List.suffix_cons c text, Nat.lt_succ_self _⟩

theorem Later.cons {rest text : Text} (c : Char) (h : Later rest text) : Later rest (c :: text) :=
  ⟨h.1.trans (List.suffix_cons c text), h.2.trans (Nat.lt_succ_self _)⟩

theorem Later.of_suffix {rest text : Text} {c : Char} (h : rest <:+ text) :
    Later rest (c :: text) :=
  ⟨h.trans (List.suffix_cons c text), Nat.lt_succ_of_le h.length_le⟩

theorem Later.of_tail {rest text : Text} {c : Char} (h : Later rest text.tail) :
    Later rest (c :: text) :=
  ⟨h.1.trans ((List.tail_suffix text).trans (List.suffix_cons c text)),
    (h.2.trans_le (List.tail_suffix text).length_le).trans (Nat.lt_succ_self _)⟩

theorem later_afterQuote {quote : Char} {text rest : Text}
    (h : afterQuote quote text = some rest) : Later rest text := by
  fun_induction afterQuote quote text with
  | case1 => cases h
  | case2 =>
    cases h
    exact later_cons _ _
  | case3 => cases h
  | case4 r ih => exact ((ih h).cons _).cons _
  | case5 d r hd =>
    cases h
    exact later_cons _ _
  | case6 c d r hc ih => exact (ih h).cons _

theorem later_afterEscaped {text rest : Text} (h : afterEscaped text = some rest) :
    Later rest text := by
  fun_induction afterEscaped text with
  | case1 => cases h
  | case2 =>
    cases h
    exact later_cons _ _
  | case3 => cases h
  | case4 d r ih => exact ((ih h).cons _).cons _
  | case5 r hc ih => exact ((ih h).cons _).cons _
  | case6 d r hc hd =>
    cases h
    exact later_cons _ _
  | case7 c d r hc hq ih => exact (ih h).cons _

theorem later_afterComment {depth : Nat} {text rest : Text}
    (h : afterComment depth text = some rest) : Later rest text := by
  fun_induction afterComment depth text with
  | case1 => cases h
  | case2 => cases h
  | case3 depth c d r hc ih => exact ((ih h).cons _).cons _
  | case4 c d r hc hd =>
    cases h
    exact (later_cons _ _).cons _
  | case5 depth c d r hc hd h0 ih => exact ((ih h).cons _).cons _
  | case6 depth c d r hc hd ih => exact (ih h).cons _

theorem suffix_afterText {delimiter text rest : Text} (h : afterText delimiter text = some rest) :
    rest <:+ text := by
  induction text with
  | nil => cases h
  | cons c r ih =>
    simp only [afterText] at h
    split at h
    · cases h
      exact List.drop_suffix _ _
    · exact (ih h).trans (List.suffix_cons c r)

theorem later_dollarTag {text tag content : Text} (h : dollarTag text = some (tag, content)) :
    Later content text := by
  have hs := List.dropWhile_suffix isTagPart (l := text)
  simp only [dollarTag] at h
  split at h
  · rename_i r hr
    split_ifs at h
    cases h
    rw [hr] at hs
    exact ⟨(List.suffix_cons _ _).trans hs, (Nat.lt_succ_self _).trans_le hs.length_le⟩
  · cases h

theorem suffix_afterLine (text : Text) : afterLine text <:+ text := List.dropWhile_suffix _

-- Tokens

def skipSpace (text : Text) : Text := text.dropWhile isSpace

/-- A quotation between two dollar tags, or a plain dollar sign. -/
def readDollar (rest : Text) : Option (Option Token × Text) :=
  match dollarTag rest with
  | none => some (some (.symbol '$'), rest)
  | some (tag, content) => (afterText ('$' :: tag ++ ['$']) content).map (some .quoted, ·)

/-- One step of the lexer, on a text that does not start with a space: the token, if the step gives
one, and the rest of the text. -/
def read (c : Char) (rest : Text) : Option (Option Token × Text) :=
  if c = '-' ∧ rest.head? = some '-' then some (none, afterLine rest.tail)
  else if c = '/' ∧ rest.head? = some '*' then (afterComment 0 rest.tail).map (none, ·)
  else if (c = 'E' ∨ c = 'e') ∧ rest.head? = some '\'' then
    (afterEscaped rest.tail).map (some .quoted, ·)
  else if c = '\'' ∨ c = '"' then (afterQuote c rest).map (some .quoted, ·)
  else if c = '$' then readDollar rest
  else if c = ';' then some (some .semicolon, rest)
  else if isTagStart c then
    some (some (.word (c :: rest.takeWhile isNamePart)), rest.dropWhile isNamePart)
  else some (some (.symbol c), rest)

theorem later_read {c : Char} {rest next : Text}
    (h : read c rest = some (token, next)) : Later next (c :: rest) := by
  unfold read at h
  split_ifs at h
  · cases h
    exact .of_suffix ((suffix_afterLine _).trans (List.tail_suffix _))
  · obtain ⟨_, hn, he⟩ := Option.map_eq_some_iff.mp h
    cases he
    exact (later_afterComment hn).of_tail
  · obtain ⟨_, hn, he⟩ := Option.map_eq_some_iff.mp h
    cases he
    exact (later_afterEscaped hn).of_tail
  · obtain ⟨_, hn, he⟩ := Option.map_eq_some_iff.mp h
    cases he
    exact (later_afterQuote hn).cons _
  · unfold readDollar at h
    split at h
    · cases h
      exact later_cons _ _
    · rename_i tag content ht
      obtain ⟨_, hn, he⟩ := Option.map_eq_some_iff.mp h
      cases he
      exact .of_suffix ((suffix_afterText hn).trans (later_dollarTag ht).1)
  · cases h
    exact later_cons _ _
  · cases h
    exact .of_suffix (List.dropWhile_suffix _)
  · cases h
    exact later_cons _ _

theorem read_ne_unterminated {c : Char} {rest next : Text}
    (h : read c rest = some (token, next)) : token ≠ some .unterminated := by
  unfold read readDollar at h
  rintro rfl
  split_ifs at h <;> simp at h
  split at h <;> simp at h

theorem length_read {text rest next : Text} {c : Char}
    (ht : skipSpace text = c :: rest) (h : read c rest = some (token, next)) :
    next.length < text.length := by
  have hs := (List.dropWhile_suffix isSpace (l := text)).length_le
  rw [← skipSpace, ht] at hs
  exact (later_read h).2.trans_le hs

def tokens (text : Text) : List Token :=
  match _ht : skipSpace text with
  | [] => []
  | c :: rest =>
    match _h : read c rest with
    | none => [.unterminated]
    | some (token, next) => token.toList ++ tokens next
termination_by text.length
decreasing_by exact length_read _ht _h

theorem tokens_nil {text : Text} (ht : skipSpace text = []) : tokens text = [] := by
  rw [tokens]
  split <;> simp_all

theorem tokens_read {text rest next : Text} {c : Char}
    (ht : skipSpace text = c :: rest) (h : read c rest = some (token, next)) :
    tokens text = token.toList ++ tokens next := by
  rw [tokens]
  split
  · simp_all
  · rename_i c' rest' ht'
    obtain ⟨rfl, rfl⟩ := List.cons.inj (ht.symm.trans ht')
    split <;> simp_all

theorem tokens_unterminated {text rest : Text} {c : Char} (ht : skipSpace text = c :: rest)
    (h : read c rest = none) : tokens text = [.unterminated] := by
  rw [tokens]
  split
  · simp_all
  · rename_i c' rest' ht'
    obtain ⟨rfl, rfl⟩ := List.cons.inj (ht.symm.trans ht')
    split <;> simp_all

theorem tokens_skipSpace (text : Text) : tokens (skipSpace text) = tokens text := by
  have hs : skipSpace (skipSpace text) = skipSpace text := List.dropWhile_idempotent _ _
  cases ht : skipSpace text with
  | nil =>
    rw [tokens_nil ht]
    exact tokens_nil rfl
  | cons c rest =>
    have ht' : skipSpace (c :: rest) = c :: rest := by rw [← ht, hs]
    cases h : read c rest with
    | none => rw [tokens_unterminated ht h, tokens_unterminated ht' h]
    | some step => rw [tokens_read ht h, tokens_read ht' h]

def Token.word? : Token → Option Text
  | .word text => some text
  | _ => none

def words (text : Text) : List Text := (tokens text).filterMap Token.word?

def OneStatement (ts : List Token) : Prop :=
  ∃ body, body ≠ [] ∧ Token.semicolon ∉ body ∧ (ts = body ∨ ts = body ++ [.semicolon])

theorem oneStatement_iff {ts : List Token} :
    OneStatement ts ↔ ts ≠ [] ∧ ts ≠ [.semicolon] ∧ Token.semicolon ∉ ts.dropLast := by
  constructor
  · rintro ⟨body, hne, hb, rfl | rfl⟩
    · refine ⟨hne, ?_, fun h => hb (List.dropLast_subset _ h)⟩
      rintro rfl
      simp at hb
    · simpa using ⟨hne, hb⟩
  · rintro ⟨hne, hsemi, hb⟩
    obtain ⟨body, last, rfl⟩ := (List.eq_nil_or_concat' ts).resolve_left hne
    rw [List.dropLast_concat] at hb
    by_cases hl : last = .semicolon
    · subst hl
      exact ⟨body, fun he => hsemi (by rw [he, List.nil_append]), hb, .inr rfl⟩
    · exact ⟨body ++ [last], hne, by simpa [hb] using Ne.symm hl, .inl rfl⟩

example : tokens "SELECT a$$ /* ; */ 'x;''y' ; -- z".toList =
    [.word "SELECT".toList, .word "a$$".toList, .quoted, .semicolon] := by decide +kernel

end Varve.Sql
