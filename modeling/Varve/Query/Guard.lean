import Mathlib.Data.Bool.AllAny
import Mathlib.Data.List.Infix
import Mathlib.Data.List.TakeWhile
import Varve.Lib.Except
import Varve.Query.Lexical

/-!
# The read-only guard

`validate_read_only_statement` of `query.rs` and the scanner under it, against the lexical rules of
the database.
-/

namespace Varve.Query

open Result (ensure ensure_bind bind_ok)
open Sql (Token Later later_cons tokens)

-- The scanner

def maxQueryScriptBytes : Nat := 8 * 1024 * 1024

def isAsciiWhitespace (c : Char) : Bool :=
  c == ' ' || c == '\t' || c == '\n' || c == '\r' || c == Char.ofNat 12

def isWordPart (c : Char) : Bool := c.isAlphanum || c == '_'

def isNewline (c : Char) : Bool := c == '\n' || c == '\r'

def skipQuoted (quote : Char) : Text → Except String Text
  | [] => .error "unterminated SQL quote"
  | c :: rest =>
    if c = quote then
      match rest with
      | d :: rest' => if d = quote then skipQuoted quote rest' else .ok rest
      | [] => .ok []
    else skipQuoted quote rest

def skipBlockComment (depth : Nat) : Text → Except String Text
  | [] => .error "unterminated SQL block comment"
  | [_] => .error "unterminated SQL block comment"
  | c :: d :: rest =>
    if c = '/' ∧ d = '*' then skipBlockComment (depth + 1) rest
    else if c = '*' ∧ d = '/' then
      if depth - 1 = 0 then .ok rest else skipBlockComment (depth - 1) rest
    else skipBlockComment depth (d :: rest)

/-- The text after the first window that is the delimiter. -/
def findDelimiter (delimiter : Text) : Text → Option Text
  | [] => none
  | c :: rest =>
    if (c :: rest).take delimiter.length = delimiter then some ((c :: rest).drop delimiter.length)
    else findDelimiter delimiter rest

def skipDollarQuote (text : Text) : Except String (Option Text) :=
  let tag := text.takeWhile isWordPart
  match text.dropWhile isWordPart with
  | '$' :: content =>
    match findDelimiter ('$' :: tag ++ ['$']) content with
    | some next => .ok (some next)
    | none => .error "unterminated SQL dollar quote"
  | _ => .ok none

theorem later_skipQuoted (h : skipQuoted quote text = .ok rest) : Later rest text := by
  fun_induction skipQuoted quote text with
  | case1 => cases h
  | case2 r ih => exact ((ih h).cons _).cons _
  | case3 d r hd =>
    cases h
    exact later_cons _ _
  | case4 =>
    cases h
    exact later_cons _ _
  | case5 c r hc ih => exact (ih h).cons _

theorem later_skipBlockComment (h : skipBlockComment depth text = .ok rest) : Later rest text := by
  fun_induction skipBlockComment depth text with
  | case1 => cases h
  | case2 => cases h
  | case3 depth c d r hc ih => exact ((ih h).cons _).cons _
  | case4 depth c d r hc hd =>
    cases h
    exact (later_cons _ _).cons _
  | case5 depth c d r hc hd h0 ih => exact ((ih h).cons _).cons _
  | case6 depth c d r hc hd ih => exact (ih h).cons _

theorem suffix_findDelimiter (h : findDelimiter delimiter text = some rest) : rest <:+ text := by
  induction text with
  | nil => cases h
  | cons c r ih =>
    simp only [findDelimiter] at h
    split at h
    · cases h
      exact List.drop_suffix _ _
    · exact (ih h).trans (List.suffix_cons c r)

theorem later_skipDollarQuote (h : skipDollarQuote text = .ok (some rest)) : Later rest text := by
  have hs := List.dropWhile_suffix isWordPart (l := text)
  simp only [skipDollarQuote] at h
  split at h
  · rename_i content hc
    split at h
    · rename_i next hn
      cases h
      have hle := suffix_findDelimiter hn
      rw [hc] at hs
      exact ⟨hle.trans ((List.suffix_cons _ _).trans hs),
        (Nat.lt_succ_of_le hle.length_le).trans_le hs.length_le⟩
    · cases h
  · cases h

def trailing : String := "only whitespace or comments may follow the SQL statement"

/-- The loop of `lex_sql`. -/
def lexSql (text : Text) (ended atLineStart : Bool) : Except String (List Text) :=
  match text with
  | [] => .ok []
  | c :: rest =>
    if isAsciiWhitespace c then lexSql rest ended (atLineStart || isNewline c)
    else if c = '-' ∧ rest.head? = some '-' then
      lexSql (rest.tail.dropWhile (· != '\n')) ended atLineStart
    else if c = '/' ∧ rest.head? = some '*' then
      match _h : skipBlockComment 1 rest.tail with
      | .error e => .error e
      | .ok next =>
        lexSql next ended (atLineStart || (rest.take (rest.length - next.length)).any isNewline)
    else if c = '\'' ∨ c = '"' then
      if ended then .error trailing
      else
        match _h : skipQuoted c rest with
        | .error e => .error e
        | .ok next => lexSql next ended false
    else if c = '$' then
      if ended then .error trailing
      else
        match _h : skipDollarQuote rest with
        | .error e => .error e
        | .ok (some next) => lexSql next ended false
        | .ok none => lexSql rest ended false
    else if c = ';' then
      if ended then .error "SQL must contain exactly one statement" else lexSql rest true false
    else if c = '.' ∧ atLineStart = true ∧ rest.head?.any Char.isAlpha = true then
      .error "DuckDB CLI dot commands are not allowed"
    else if c.isAlpha || c == '_' then
      if ended then .error "SQL must contain exactly one statement"
      else
        match lexSql (rest.dropWhile isWordPart) ended false with
        | .error e => .error e
        | .ok more => .ok ((c :: rest.takeWhile isWordPart).map Char.toUpper :: more)
    else if ended then .error trailing
    else lexSql rest ended false
termination_by text.length
decreasing_by
  · exact (later_cons _ _).2
  · exact (Later.of_suffix ((List.dropWhile_suffix _).trans (List.tail_suffix _))).2
  · exact (later_skipBlockComment ‹_›).of_tail.2
  · exact ((later_skipQuoted ‹_›).cons _).2
  · exact ((later_skipDollarQuote ‹_›).cons _).2
  · exact (later_cons _ _).2
  · exact (later_cons _ _).2
  · exact (Later.of_suffix (List.dropWhile_suffix _)).2
  · exact (later_cons _ _).2

def forbidden : List Text :=
  ["ALTER", "ATTACH", "CALL", "CHECKPOINT", "COMMENT", "COPY", "CREATE", "DELETE", "DETACH", "DROP",
    "EXPORT", "FORCE", "GRANT", "IMPORT", "INSERT", "INSTALL", "LOAD", "MERGE", "PRAGMA", "REPLACE",
    "RESET", "REVOKE", "SET", "TRUNCATE", "UPDATE", "USE", "VACUUM"].map String.toList

def leading : List Text := ["SELECT", "WITH", "EXPLAIN"].map String.toList

def validateReadOnlyStatement (sql : Text) : Except String Unit := do
  ensure (sql.len ≤ maxQueryScriptBytes) "DuckDB SQL script exceeds 8388608 bytes"
  ensure (Char.ofNat 0 ∉ sql) "SQL contains NUL"
  let words ← lexSql sql false true
  match words.head? with
  | none => .error "SQL statement is empty"
  | some first =>
    ensure (first ∈ leading) "SQL must begin with SELECT, WITH, or EXPLAIN"
    match words.find? (· ∈ forbidden) with
    | some word => .error ("SQL contains forbidden keyword " ++ String.ofList word)
    | none => .ok ()

/-- What the guard is for, in the words of the database's own lexer. -/
structure ReadOnly (sql : Text) : Prop where
  terminated : Token.unterminated ∉ tokens sql
  single : Sql.OneStatement (tokens sql)
  first : ∃ word, (Sql.words sql).head? = some word ∧ word.map Char.toUpper ∈ leading
  safe : ∀ word ∈ Sql.words sql, word.map Char.toUpper ∉ forbidden

/-- One round of the scanner as a step of the lexer, on a text that does not start with a space. The
letter of an `E` string and the string are two rounds. -/
def scanned (c : Char) (rest : Text) : Option (Option Token × Text) :=
  if c = '-' ∧ rest.head? = some '-' then some (none, rest.tail.dropWhile (· != '\n'))
  else if c = '/' ∧ rest.head? = some '*' then
    (skipBlockComment 1 rest.tail).toOption.map (none, ·)
  else if (c = 'E' ∨ c = 'e') ∧ rest.head? = some '\'' then
    (skipQuoted '\'' rest.tail).toOption.map (some .quoted, ·)
  else if c = '\'' ∨ c = '"' then (skipQuoted c rest).toOption.map (some .quoted, ·)
  else if c = '$' then
    (skipDollarQuote rest).toOption.map fun next =>
      (if next.isSome then some .quoted else some (.symbol '$'), next.getD rest)
  else if c = ';' then some (some .semicolon, rest)
  else if c.isAlpha || c == '_' then
    some (some (.word (c :: rest.takeWhile isWordPart)), rest.dropWhile isWordPart)
  else some (some (.symbol c), rest)

/-- Both take the same token and leave the same text, up to spaces. -/
def Agree (ours theirs : Option (Option Token × Text)) : Prop :=
  ours.map (Prod.map id Sql.skipSpace) = theirs.map (Prod.map id Sql.skipSpace)

instance (ours theirs : Option (Option Token × Text)) : Decidable (Agree ours theirs) :=
  inferInstanceAs (Decidable (_ = _))

/-- The tokens up to the first place where the scanner and the database part, and the text from
there; the empty text if they never do. -/
def parting (text : Text) : List Token × Text :=
  match _ht : Sql.skipSpace text with
  | [] => ([], [])
  | c :: rest =>
    if Agree (scanned c rest) (Sql.read c rest) then
      match _h : Sql.read c rest with
      | none => ([], c :: rest)
      | some (token, next) => (token.toList ++ (parting next).1, (parting next).2)
    else ([], c :: rest)
termination_by text.length
decreasing_by all_goals exact Sql.length_read _ht _h

/-- What is left of a text after these tokens keeps it read-only. -/
structure Harmless (before : List Token) (rest : Text) : Prop where
  terminated : Token.unterminated ∉ tokens rest
  single : tokens rest = [] ∨
    Token.semicolon ∉ before ∧ Token.semicolon ∉ (tokens rest).dropLast
  first : before.filterMap Token.word? = [] →
    ∃ word, (Sql.words rest).head? = some word ∧ word.map Char.toUpper ∈ leading
  safe : ∀ word ∈ Sql.words rest, word.map Char.toUpper ∉ forbidden

inductive Divergent : Text → Prop where
  /-- A line comment with a carriage return. -/
  | line {rest} (hd : rest.head? = some '-')
      (hr : '\r' ∈ rest.tail.takeWhile (· != '\n')) : Divergent ('-' :: rest)
  /-- An `E` string with a backslash. -/
  | escaped {c string rest} (hc : c = 'E' ∨ c = 'e') (hb : Text.backslash ∈ string) :
      Divergent (c :: '\'' :: string ++ rest)
  /-- A dollar sign before a tag that starts with a digit or is not ASCII. -/
  | dollar {rest} (ht : (rest.takeWhile Sql.isTagPart).head?.any Char.isDigit = true ∨
      ∃ c ∈ rest.takeWhile Sql.isTagPart, 128 ≤ c.toNat) : Divergent ('$' :: rest)
  /-- A name with a dollar sign, or one that is not ASCII. -/
  | name {c rest} (hc : Sql.isTagStart c = true)
      (hn : ∃ d ∈ c :: rest.takeWhile Sql.isNamePart, d = '$' ∨ 128 ≤ d.toNat) :
      Divergent (c :: rest)

theorem afterQuote_of_skipQuoted (h : skipQuoted quote text = .ok rest) :
    Sql.afterQuote quote text = some rest := by
  fun_induction skipQuoted quote text with
  | case1 => cases h
  | case2 r ih => simp [Sql.afterQuote, ih h]
  | case3 d r hd =>
    cases h
    simp [Sql.afterQuote, hd]
  | case4 =>
    cases h
    simp [Sql.afterQuote]
  | case5 c r hc ih =>
    cases r with
    | nil => cases h
    | cons d r => simp [Sql.afterQuote, hc, ih h]

theorem afterComment_of_skipBlockComment (h : skipBlockComment depth text = .ok rest)
    (hd : 0 < depth) : Sql.afterComment (depth - 1) text = some rest := by
  fun_induction skipBlockComment depth text with
  | case1 => cases h
  | case2 => cases h
  | case3 depth c d r hc ih =>
    have := ih h (by omega)
    simp only [Sql.afterComment, hc, and_self, if_true]
    rwa [show depth - 1 + 1 = depth + 1 - 1 by omega]
  | case4 depth c d r hc hcd h0 =>
    cases h
    simp [Sql.afterComment, hcd, h0]
  | case5 depth c d r hc hcd h0 ih =>
    have := ih h (by omega)
    simp [Sql.afterComment, hcd, h0, this]
  | case6 depth c d r hc hcd ih =>
    have := ih h hd
    simp [Sql.afterComment, hc, hcd, this]

theorem afterEscaped_of_afterQuote (h : Sql.afterQuote '\'' text = some rest) :
    ∃ string, text = string ++ rest ∧
      (Text.backslash ∉ string → Sql.afterEscaped text = some rest) := by
  fun_induction Sql.afterQuote '\'' text with
  | case1 => cases h
  | case2 =>
    cases h
    exact ⟨['\''], rfl, fun _ => rfl⟩
  | case3 => cases h
  | case4 r ih =>
    obtain ⟨string, rfl, hs⟩ := ih h
    refine ⟨'\'' :: '\'' :: string, rfl, fun hb => ?_⟩
    simp only [List.mem_cons, not_or] at hb
    simp [Sql.afterEscaped, Ne.symm hb.1, hs hb.2.2]
  | case5 d r hd =>
    cases h
    refine ⟨['\''], rfl, fun hb => ?_⟩
    simp only [List.mem_cons, not_or] at hb
    simp [Sql.afterEscaped, Ne.symm hb.1, hd]
  | case6 c d r hc ih =>
    obtain ⟨string, he, hs⟩ := ih h
    refine ⟨c :: string, by rw [he, List.cons_append], fun hb => ?_⟩
    simp only [List.mem_cons, not_or] at hb
    simp [Sql.afterEscaped, Ne.symm hb.1, hc, hs hb.2]

theorem findDelimiter_eq : findDelimiter delimiter text = Sql.afterText delimiter text := by
  induction text with
  | nil => rfl
  | cons c r ih =>
    have hiff : (c :: r).take delimiter.length = delimiter ↔
        delimiter.isPrefixOf (c :: r) = true := by
      rw [List.isPrefixOf_iff_prefix, List.prefix_iff_eq_take, eq_comm]
    simp only [findDelimiter, Sql.afterText, hiff, ih]

theorem span_eq {p q : Char → Bool} {text : Text} (hpq : ∀ c, q c = true → p c = true)
    (h : ∀ c ∈ text.takeWhile p, q c = true) :
    text.takeWhile q = text.takeWhile p ∧ text.dropWhile q = text.dropWhile p := by
  induction text with
  | nil => exact ⟨rfl, rfl⟩
  | cons c r ih =>
    cases hp : p c with
    | true =>
      simp only [List.takeWhile_cons, hp, if_true, List.mem_cons, forall_eq_or_imp] at h
      simp [hp, h.1, ih h.2]
    | false =>
      have hq : q c = false := by
        cases hq : q c with
        | true => simp [hpq c hq] at hp
        | false => rfl
      simp [hp, hq]

theorem isTagPart_eq {c : Char} (h : ¬128 ≤ c.toNat) : Sql.isTagPart c = isWordPart c := by
  simp only [Sql.isTagPart, Sql.isTagStart, isWordPart, Char.isAlphanum, h, decide_false]
  cases c.isAlpha <;> cases c.isDigit <;> cases c == '_' <;> rfl

theorem isTagPart_of_isWordPart (h : isWordPart c = true) : Sql.isTagPart c = true := by
  simp only [isWordPart, Char.isAlphanum, Bool.or_eq_true] at h
  simp only [Sql.isTagPart, Sql.isTagStart, Bool.or_eq_true]
  tauto

theorem tag_span {text : Text} (h : ∀ c ∈ text.takeWhile Sql.isTagPart, ¬128 ≤ c.toNat) :
    text.takeWhile isWordPart = text.takeWhile Sql.isTagPart ∧
      text.dropWhile isWordPart = text.dropWhile Sql.isTagPart :=
  span_eq (fun _ => isTagPart_of_isWordPart) fun c hc =>
    isTagPart_eq (h c hc) ▸ List.mem_takeWhile_imp hc

theorem word_span {text : Text} (h : ∀ c ∈ text.takeWhile Sql.isNamePart,
    ¬(c = '$' ∨ 128 ≤ c.toNat)) :
    text.takeWhile isWordPart = text.takeWhile Sql.isNamePart ∧
      text.dropWhile isWordPart = text.dropWhile Sql.isNamePart := by
  refine span_eq (fun c hc => by simp [Sql.isNamePart, isTagPart_of_isWordPart hc]) fun c hc => ?_
  have hp := List.mem_takeWhile_imp hc
  obtain ⟨hne, hascii⟩ := not_or.mp (h c hc)
  rw [← isTagPart_eq hascii]
  simpa [Sql.isNamePart, hne] using hp

theorem tag_start {text : Text}
    (h : (text.takeWhile Sql.isTagPart).head?.any Char.isDigit ≠ true) :
    (text.takeWhile Sql.isTagPart).head?.all Sql.isTagStart = true := by
  cases text with
  | nil => rfl
  | cons c r =>
    cases hp : Sql.isTagPart c with
    | false => simp [hp]
    | true =>
      have hdig : c.isDigit = false := by simpa [hp] using h
      have hs : Sql.isTagStart c = true := by simpa [Sql.isTagPart, hdig] using hp
      simp [hp, hs]

theorem afterLine_eq {text : Text} (h : '\r' ∉ text.takeWhile (· != '\n')) :
    Sql.afterLine text = text.dropWhile (· != '\n') := by
  induction text with
  | nil => rfl
  | cons c r ih =>
    by_cases hn : c = '\n'
    · simp [Sql.afterLine, hn]
    · simp only [List.takeWhile_cons, bne_iff_ne, ne_eq, hn, not_false_eq_true, if_true,
        List.mem_cons, not_or] at h
      have hc : c ≠ '\r' := fun he => h.1 he.symm
      simpa [Sql.afterLine, hn, hc] using ih h.2

-- One round of the scanner

/-- The words a round finds, before those of the rest. -/
inductive Finds : Option Token → List Text → List Text → Prop where
  | nothing {token found} (h : token.bind Token.word? = none) : Finds token found found
  | word {word found} : Finds (some (.word word)) found (word.map Char.toUpper :: found)
  /-- The letter of an `E` string is a word to the scanner only. -/
  | letter {found} : Finds (some .quoted) found (['E'] :: found)

theorem lexSql_space (hc : Sql.isSpace c = true) (h : lexSql (c :: rest) ended start = .ok found) :
    ∃ start', lexSql rest ended start' = .ok found := by
  rw [lexSql] at h
  by_cases hw : isAsciiWhitespace c = true
  · rw [if_pos hw] at h
    exact ⟨_, h⟩
  obtain rfl : c = Char.ofNat 11 := by
    simp only [Sql.isSpace, isAsciiWhitespace, Bool.or_eq_true, beq_iff_eq] at hc hw
    tauto
  rw [if_neg hw, if_neg (fun hd => absurd hd.1 (by decide)),
    if_neg (fun hd => absurd hd.1 (by decide)), if_neg (by decide), if_neg (by decide),
    if_neg (by decide), if_neg (fun hd => absurd hd.1 (by decide)), if_neg (by decide)] at h
  split at h
  · cases h
  · exact ⟨_, h⟩

theorem lexSql_skipSpace (h : lexSql text ended start = .ok found) :
    ∃ start', lexSql (Sql.skipSpace text) ended start' = .ok found := by
  induction text generalizing start with
  | nil => exact ⟨start, h⟩
  | cons c rest ih =>
    cases hc : Sql.isSpace c with
    | true =>
      obtain ⟨start', h'⟩ := lexSql_space hc h
      simpa [Sql.skipSpace, hc] using ih h'
    | false => exact ⟨start, by simpa [Sql.skipSpace, hc] using h⟩

theorem isSpace_of_isAsciiWhitespace (h : isAsciiWhitespace c = true) : Sql.isSpace c = true := by
  simp only [isAsciiWhitespace, Bool.or_eq_true] at h
  simp only [Sql.isSpace, Bool.or_eq_true]
  tauto

theorem lexSql_quote (hc : c = '\'' ∨ c = '"') (h : lexSql (c :: rest) ended start = .ok found) :
    ended = false ∧ ∃ next, skipQuoted c rest = .ok next ∧ lexSql next false false = .ok found := by
  have hne : isAsciiWhitespace c = false ∧ c ≠ '-' ∧ c ≠ '/' := by
    rcases hc with rfl | rfl <;> decide
  rw [lexSql, if_neg (by simp [hne]), if_neg (by simp [hne]), if_neg (by simp [hne]),
    if_pos hc] at h
  split at h
  · cases h
  · rename_i he
    obtain rfl : ended = false := by simpa using he
    split at h
    · cases h
    · exact ⟨rfl, _, ‹_›, h⟩

theorem lexSql_word (hc : c = 'E' ∨ c = 'e') (h : lexSql (c :: rest) ended start = .ok found) :
    ended = false ∧ ∃ more, found = (c :: rest.takeWhile isWordPart).map Char.toUpper :: more ∧
      lexSql (rest.dropWhile isWordPart) false false = .ok more := by
  have hne : isAsciiWhitespace c = false ∧ c ≠ '-' ∧ c ≠ '/' ∧ c ≠ '\'' ∧ c ≠ '"' ∧ c ≠ '$' ∧
      c ≠ ';' ∧ c ≠ '.' ∧ c.isAlpha = true := by
    rcases hc with rfl | rfl <;> decide
  rw [lexSql, if_neg (by simp [hne]), if_neg (by simp [hne]), if_neg (by simp [hne]),
    if_neg (by simp [hne]), if_neg (by simp [hne]), if_neg (by simp [hne]), if_neg (by simp [hne]),
    if_pos (by simp [hne])] at h
  split at h
  · cases h
  · rename_i he
    obtain rfl : ended = false := by simpa using he
    split at h
    · cases h
    · rename_i more hm
      cases h
      exact ⟨rfl, more, rfl, hm⟩

theorem lexSql_letter {rest : Text} (hc : c = 'E' ∨ c = 'e') (hq : rest.head? = some '\'')
    (h : lexSql (rest.dropWhile isWordPart) ended start = .ok found) :
    (c :: rest.takeWhile isWordPart).map Char.toUpper = ['E'] ∧
      ∃ next, skipQuoted '\'' rest.tail = .ok next ∧ lexSql next false false = .ok found := by
  cases rest with
  | nil => cases hq
  | cons d rest =>
    obtain rfl : d = '\'' := Option.some.inj hq
    have hspan : isWordPart '\'' = false := by decide
    simp only [List.takeWhile_cons, List.dropWhile_cons, hspan, Bool.false_eq_true, if_false]
      at h ⊢
    exact ⟨by rcases hc with rfl | rfl <;> decide, (lexSql_quote (.inl rfl) h).2⟩

theorem scanned_of_lexSql (hc : Sql.isSpace c = false)
    (h : lexSql (c :: rest) ended start = .ok found) :
    ∃ token next start' found', scanned c rest = some (token, next) ∧
      lexSql next (ended || decide (token = some .semicolon)) start' = .ok found' ∧
      Finds token found' found ∧ (ended = true → token = none) := by
  by_cases hq : c = '\'' ∨ c = '"'
  · obtain ⟨rfl, next, hs, h⟩ := lexSql_quote hq h
    have hne : c ≠ '-' ∧ c ≠ '/' ∧ c ≠ 'E' ∧ c ≠ 'e' := by rcases hq with rfl | rfl <;> decide
    exact ⟨some .quoted, next, false, found, by simp [scanned, hne, hq, hs, Except.toOption], h,
      .nothing rfl, by simp⟩
  by_cases hesc : (c = 'E' ∨ c = 'e') ∧ rest.head? = some '\''
  · obtain ⟨rfl, more, rfl, hm⟩ := lexSql_word hesc.1 h
    obtain ⟨hw, next, hs, hl⟩ := lexSql_letter hesc.1 hesc.2 hm
    have hne : c ≠ '-' ∧ c ≠ '/' := by rcases hesc.1 with rfl | rfl <;> decide
    exact ⟨some .quoted, next, _, more, by simp [scanned, hne, hesc, hs, Except.toOption], hl,
      hw ▸ .letter, by simp⟩
  rw [lexSql, if_neg fun hw => by simp [isSpace_of_isAsciiWhitespace hw] at hc] at h
  unfold scanned
  split_ifs at h ⊢
  · exact ⟨none, _, start, found, rfl, by simpa using h, .nothing rfl, fun _ => rfl⟩
  · split at h
    · cases h
    · rename_i next hs
      exact ⟨none, next, _, found, by simp [hs, Except.toOption], by simpa using h, .nothing rfl,
        fun _ => rfl⟩
  · rename_i hend
    split at h
    · cases h
    · rename_i next hs
      exact ⟨some .quoted, next, _, found, by simp [hs, Except.toOption], by simpa using h,
        .nothing rfl, fun he => absurd he hend⟩
    · rename_i hs
      exact ⟨some (.symbol '$'), rest, _, found, by simp [hs, Except.toOption], by simpa using h,
        .nothing rfl, fun he => absurd he hend⟩
  · rename_i hend
    exact ⟨some .semicolon, rest, _, found, rfl, by simpa using h, .nothing rfl,
      fun he => absurd he hend⟩
  · rename_i hend
    split at h
    · cases h
    · rename_i more hm
      cases h
      exact ⟨some (.word (c :: rest.takeWhile isWordPart)), _, _, more, rfl, by simpa using hm,
        .word, fun he => absurd he hend⟩
  · rename_i hend
    exact ⟨some (.symbol c), rest, _, found, rfl, by simpa using h, .nothing rfl,
      fun he => absurd he hend⟩

theorem toOption_map_ok {r : Except String α} {f : α → β} {b : β}
    (h : r.toOption.map f = some b) : ∃ a, r = .ok a ∧ f a = b := by
  cases r with
  | error e => cases h
  | ok a => exact ⟨a, rfl, Option.some.inj h⟩

theorem dollarTag_eq (hd : ¬Divergent ('$' :: rest)) : Sql.dollarTag rest =
    match rest.dropWhile isWordPart with
    | '$' :: content => some (rest.takeWhile isWordPart, content)
    | _ => none := by
  have hdig : (rest.takeWhile Sql.isTagPart).head?.any Char.isDigit ≠ true :=
    fun ht => hd (.dollar (.inl ht))
  obtain ⟨htag, hcontent⟩ := @tag_span rest fun c hc ha => hd (.dollar (.inr ⟨c, hc, ha⟩))
  rw [htag, hcontent, Sql.dollarTag]
  split <;> simp_all [tag_start hdig]

theorem readDollar_eq (hd : ¬Divergent ('$' :: rest)) (h : skipDollarQuote rest = .ok next) :
    Sql.readDollar rest =
      some (if next.isSome then some .quoted else some (.symbol '$'), next.getD rest) := by
  simp only [skipDollarQuote] at h
  have htag := dollarTag_eq hd
  split at h
  · rename_i content hc
    rw [hc] at htag
    split at h
    · rename_i hn
      cases h
      simpa [Sql.readDollar, htag, ← findDelimiter_eq] using hn
    · cases h
  · rename_i hc
    cases h
    split at htag
    · rename_i he
      exact absurd he (hc _)
    · simp [Sql.readDollar, htag]

theorem read_of_scanned (hd : ¬Divergent (c :: rest)) (h : scanned c rest = some (token, next)) :
    Sql.read c rest = some (token, next) := by
  unfold scanned at h
  by_cases hdollar : c = '$'
  · subst hdollar
    simp only [Char.reduceEq, false_and, if_false, or_self, if_true] at h
    obtain ⟨r, hs, hr⟩ := toOption_map_ok h
    simp only [Sql.read, Char.reduceEq, false_and, if_false, or_self, if_true, readDollar_eq hd hs,
      hr]
  unfold Sql.read
  split_ifs at h ⊢ with hline hblock hesc hquote hsemi hword hstart hstart
  · obtain ⟨rfl, hh⟩ := hline
    rw [afterLine_eq fun hr => hd (.line hh hr), h]
  · obtain ⟨r, hs, hr⟩ := toOption_map_ok h
    rw [afterComment_of_skipBlockComment hs (by decide), ← hr]
    rfl
  · obtain ⟨r, hs, hr⟩ := toOption_map_ok h
    obtain ⟨string, he, hnext⟩ := afterEscaped_of_afterQuote (afterQuote_of_skipQuoted hs)
    rw [hnext fun hb => hd ?_, ← hr]
    · rfl
    · cases rest with
      | nil => cases hesc.2
      | cons d rest =>
        obtain rfl : d = '\'' := Option.some.inj hesc.2
        rw [List.tail_cons] at he
        rw [he]
        exact .escaped hesc.1 hb
  · obtain ⟨r, hs, hr⟩ := toOption_map_ok h
    rw [afterQuote_of_skipQuoted hs, ← hr]
    rfl
  · exact h
  · obtain ⟨hw, hr⟩ := @word_span rest fun d hm hn =>
      hd (.name hword ⟨d, List.mem_cons_of_mem _ hm, hn⟩)
    rw [← hw, ← hr, h]
  · have hascii : 128 ≤ c.toNat := by simpa [Sql.isTagStart, hstart] using hword
    exact absurd (.name hword ⟨c, by simp, .inr hascii⟩) hd
  · simp only [Sql.isTagStart, Bool.or_eq_true] at hword hstart
    tauto
  · exact h

-- The two readings of a text

/-- What a run of the scanner says of the tokens up to the parting. -/
structure Follows (text : Text) (p : List Token × Text) (ended : Bool) (found : List Text) :
    Prop where
  tokens : tokens text = p.1 ++ tokens p.2
  terminated : Token.unterminated ∉ p.1
  closed : ended = true → p.1 = []
  single : Token.semicolon ∉ p.1.dropLast
  words : ((p.1.filterMap Token.word?).map (·.map Char.toUpper)).Sublist found
  head : found.head? ≠ some ['E'] → (p.1.filterMap Token.word? ≠ [] ∨ p.2 = []) →
    (p.1.filterMap Token.word?).head?.map (·.map Char.toUpper) = found.head?
  divergent : p.2 = [] ∨ Divergent p.2

theorem Follows.step {token : Option Token}
    (h : Follows next p (ended || decide (token = some .semicolon)) found)
    (ht : Sql.tokens text = token.toList ++ Sql.tokens next) (hf : Finds token found found')
    (he : ended = true → token = none) (hu : token ≠ some .unterminated) :
    Follows text (token.toList ++ p.1, p.2) ended found' := by
  cases token with
  | none =>
    cases hf
    simp only [reduceCtorEq, decide_false, Bool.or_false] at h
    exact ⟨ht.trans h.tokens, h.terminated, h.closed, h.single, h.words, h.head, h.divergent⟩
  | some token =>
    obtain rfl : ended = false := by simpa using he
    have htokens : Sql.tokens text = token :: p.1 ++ Sql.tokens p.2 := by simp [ht, h.tokens]
    have hterm : Token.unterminated ∉ token :: p.1 := by
      simpa [h.terminated] using fun he => hu (congrArg some he.symm)
    have hsingle : Token.semicolon ∉ (token :: p.1).dropLast := by
      by_cases hp : p.1 = []
      · simp [hp]
      · rw [List.dropLast_cons_of_ne_nil hp, List.mem_cons, not_or]
        refine ⟨?_, h.single⟩
        rintro rfl
        exact hp (h.closed (by simp))
    cases hf with
    | nothing hw =>
      have hwords : (token :: p.1).filterMap Token.word? = p.1.filterMap Token.word? :=
        List.filterMap_cons_none hw
      exact ⟨htokens, hterm, by simp, hsingle, hwords ▸ h.words, hwords ▸ h.head, h.divergent⟩
    | word =>
      exact ⟨htokens, hterm, by simp, hsingle, by simpa [Token.word?] using h.words,
        fun _ _ => by simp [Token.word?], h.divergent⟩
    | letter =>
      exact ⟨htokens, hterm, by simp, hsingle, h.words.cons _, by simp, h.divergent⟩

theorem isSpace_skipSpace (ht : Sql.skipSpace text = c :: rest) : Sql.isSpace c = false := by
  have h := List.head?_dropWhile_not Sql.isSpace text
  rw [← Sql.skipSpace, ht] at h
  exact h

theorem follows_parting (h : lexSql (Sql.skipSpace text) ended start = .ok found) :
    Follows text (parting text) ended found := by
  fun_induction parting text generalizing ended start found with
  | case1 text ht =>
    rw [ht, lexSql] at h
    cases h
    exact ⟨by simp [Sql.tokens_nil ht, @Sql.tokens_nil [] rfl], by simp, fun _ => rfl,
      by simp, by simp, fun _ _ => rfl, .inl rfl⟩
  | case2 text c rest ht ha hr =>
    rw [ht] at h
    obtain ⟨token, next, _, _, hs, -⟩ := scanned_of_lexSql (isSpace_skipSpace ht) h
    simp [Agree, hs, hr] at ha
  | case3 text c rest ht ha token next hr ih =>
    rw [ht] at h
    obtain ⟨token', next', start', found', hs, hl, hf, he⟩ :=
      scanned_of_lexSql (isSpace_skipSpace ht) h
    obtain ⟨rfl, hnext⟩ : token' = token ∧ Sql.skipSpace next' = Sql.skipSpace next := by
      simpa [Agree, hs, hr] using ha
    obtain ⟨start'', hl⟩ := lexSql_skipSpace hl
    rw [hnext] at hl
    exact (ih hl).step (Sql.tokens_read ht hr) hf he (Sql.read_ne_unterminated hr)
  | case4 text c rest ht ha =>
    rw [ht] at h
    obtain ⟨token, next, _, _, hs, -⟩ := scanned_of_lexSql (isSpace_skipSpace ht) h
    have hd : Divergent (c :: rest) := by
      by_contra hd
      exact ha (by rw [hs, read_of_scanned hd hs]; rfl)
    exact ⟨by rw [List.nil_append, ← ht, Sql.tokens_skipSpace], by simp, fun _ => rfl,
      by simp, by simp, fun _ hp => by simp at hp, .inr hd⟩

theorem validateReadOnlyStatement_ok (h : validateReadOnlyStatement sql = .ok ()) :
    ∃ found first, lexSql sql false true = .ok found ∧ found.head? = some first ∧
      first ∈ leading ∧ ∀ word ∈ found, word ∉ forbidden := by
  unfold validateReadOnlyStatement at h
  obtain ⟨-, h⟩ := ensure_bind.mp h
  obtain ⟨-, h⟩ := ensure_bind.mp h
  obtain ⟨found, hf, h⟩ := bind_ok.mp h
  split at h
  · cases h
  · rename_i first hfirst
    obtain ⟨hl, h⟩ := ensure_bind.mp h
    split at h
    · cases h
    · rename_i hnone
      refine ⟨found, first, hf, hfirst, hl, fun word hw => ?_⟩
      simpa using List.find?_eq_none.mp hnone word hw

theorem head_ne_letter {found : List Text} (hhead : found.head? = some first)
    (hl : first ∈ leading) : found.head? ≠ some ['E'] := by
  rw [hhead]
  rintro ⟨⟩
  revert hl
  decide

theorem readOnly_iff (h : Follows sql p false found) (hhead : found.head? = some first)
    (hl : first ∈ leading) (hsafe : ∀ word ∈ found, word ∉ forbidden) :
    ReadOnly sql ↔ Harmless p.1 p.2 := by
  have hwords : Sql.words sql = p.1.filterMap Token.word? ++ Sql.words p.2 := by
    rw [Sql.words, h.tokens, List.filterMap_append, Sql.words]
  have hne := head_ne_letter hhead hl
  have hnamed : p.1.filterMap Token.word? ≠ [] → ∃ word,
      (Sql.words sql).head? = some word ∧ word.map Char.toUpper ∈ leading := fun hw => by
    obtain ⟨word, hword, rfl⟩ :=
      Option.map_eq_some_iff.mp ((h.head hne (.inl hw)).trans hhead)
    exact ⟨word, by rw [hwords, List.head?_append, hword, Option.some_or], hl⟩
  constructor
  · intro hr
    refine ⟨fun hu => hr.terminated (h.tokens ▸ List.mem_append_right _ hu), ?_, fun hw => ?_,
      fun word hw => hr.safe word (hwords ▸ List.mem_append_right _ hw)⟩
    · obtain ⟨-, -, hs⟩ := Sql.oneStatement_iff.mp hr.single
      by_cases ht : Sql.tokens p.2 = []
      · exact .inl ht
      · rw [h.tokens, List.dropLast_append_of_ne_nil ht, List.mem_append, not_or] at hs
        exact .inr hs
    · simpa [hwords, hw] using hr.first
  · intro hr
    have hfirst : ∃ word, (Sql.words sql).head? = some word ∧ word.map Char.toUpper ∈ leading := by
      by_cases hw : p.1.filterMap Token.word? = []
      · simpa [hwords, hw] using hr.first hw
      · exact hnamed hw
    refine ⟨?_, ?_, hfirst, fun word hw => ?_⟩
    · rw [h.tokens, List.mem_append, not_or]
      exact ⟨h.terminated, hr.terminated⟩
    · obtain ⟨word, hword, -⟩ := hfirst
      refine Sql.oneStatement_iff.mpr ⟨?_, ?_, ?_⟩
      · intro ht
        simp [Sql.words, ht] at hword
      · intro ht
        simp [Sql.words, ht, Token.word?] at hword
      · rcases hr.single with ht | ⟨hb, hs⟩
        · rw [h.tokens, ht, List.append_nil]
          exact h.single
        · by_cases ht : Sql.tokens p.2 = []
          · rw [h.tokens, ht, List.append_nil]
            exact h.single
          · rw [h.tokens, List.dropLast_append_of_ne_nil ht, List.mem_append, not_or]
            exact ⟨hb, hs⟩
    · rw [hwords, List.mem_append] at hw
      rcases hw with hw | hw
      · exact hsafe _ (h.words.subset (List.mem_map_of_mem hw))
      · exact hr.safe word hw

/-- A name with dollar signs, an escaped quote, a carriage return and a tag that is a number. -/
def escapes : List Text :=
  ["SELECT a$$;DROP TABLE t;--$$", "SELECT E'\\'';DROP TABLE t;--'", "SELECT 1 --\rDROP TABLE t",
    "SELECT $1$;DROP TABLE t;--$1$"].map String.toList

end Varve.Query
