import Varve.Lib.Text

/-!
# Compact JSON text

The text `serde_json` writes: no blanks, fields in the order given, control characters escaped.
-/

namespace Json

open Text (len backslash)

def null : Text := "null".toList

def bool (b : Bool) : Text := if b then "true".toList else "false".toList

def nat (n : Nat) : Text := Nat.toDigits 10 n

def int : Int → Text
  | .ofNat n => nat n
  | .negSucc n => '-' :: nat (n + 1)

def escape (c : Char) : Text :=
  if c = '"' ∨ c = backslash then [backslash, c]
  else if c.toNat = 8 then [backslash, 'b']
  else if c.toNat = 9 then [backslash, 't']
  else if c.toNat = 10 then [backslash, 'n']
  else if c.toNat = 12 then [backslash, 'f']
  else if c.toNat = 13 then [backslash, 'r']
  else if c.toNat < 32 then
    [backslash, 'u', '0', '0', Nat.digitChar (c.toNat / 16), Nat.digitChar (c.toNat % 16)]
  else [c]

def string (t : Text) : Text := '"' :: (t.flatMap escape ++ ['"'])

def option (f : α → Text) : Option α → Text
  | none => null
  | some a => f a

def array (items : List Text) : Text := '[' :: ((items.intersperse [',']).flatten ++ [']'])

def field (key value : Text) : Text := string key ++ ':' :: value

def object (fields : List (Text × Text)) : Text :=
  Char.ofNat 123 :: (((fields.map fun p => field p.1 p.2).intersperse [',']).flatten ++
    [Char.ofNat 125])

theorem len_flatten_intersperse (ts : List Text) :
    len (ts.intersperse [',']).flatten = (ts.map len).sum + (ts.length - 1) := by
  induction ts with
  | nil => rfl
  | cons t ts ih =>
    cases ts with
    | nil => simp
    | cons u ts =>
      have hcomma : Char.utf8Size ',' = 1 := rfl
      simp only [List.intersperse_cons_cons, List.flatten_cons, Text.len_append, ih, List.map_cons,
        List.sum_cons, List.length_cons, Text.len_cons, Text.len_nil, hcomma]
      omega

theorem len_object (fields : List (Text × Text)) :
    len (object fields) =
      2 + (fields.map fun p => len (string p.1) + 1 + len p.2).sum + (fields.length - 1) := by
  have hmap : ((fields.map fun p => field p.1 p.2).map len).sum =
      (fields.map fun p => len (string p.1) + 1 + len p.2).sum := by
    rw [List.map_map]
    congr 2
    funext p
    have hcolon : Char.utf8Size ':' = 1 := rfl
    simp only [Function.comp, field, Text.len_append, Text.len_cons, hcolon]
    omega
  have hopen : Char.utf8Size (Char.ofNat 123) = 1 := rfl
  have hclose : Char.utf8Size (Char.ofNat 125) = 1 := rfl
  simp only [object, Text.len_cons, Text.len_append, Text.len_nil, len_flatten_intersperse, hmap,
    List.length_map, hopen, hclose]
  omega

end Json
