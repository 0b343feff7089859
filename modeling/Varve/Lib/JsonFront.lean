import Varve.Lib.JsonRead
import Varve.Lib.Map

/-!
# Values in front of a delimiter

JSON records and maps are told apart by their texts.
-/

namespace Text

theorem utf8_injective : Function.Injective utf8 := by
  intro s t h
  refine String.ofList_injective (String.toByteArray_inj.mp ?_)
  simpa [utf8, List.utf8Encode] using congrArg List.toByteArray h

end Text

namespace Json

-- Values in front of a delimiter

def Delimited (x : Text) : Prop := ∃ c y, x = c :: y ∧ (c = ',' ∨ c = Char.ofNat 125)

def Front (f : α → Text) : Prop :=
  ∀ {a b x y}, Delimited x → Delimited y → f a ++ x = f b ++ y → a = b ∧ x = y

theorem Delimited.notDigit (h : Delimited x) : ∀ c ∈ x.head?, c.isDigit = false := by
  obtain ⟨c, y, rfl, rfl | rfl⟩ := h
  · rintro _ ⟨⟩
    rfl
  · rintro _ ⟨⟩
    rfl

theorem digits_append_inj {l m x y : Text} (hl : ∀ c ∈ l, c.isDigit = true)
    (hm : ∀ c ∈ m, c.isDigit = true) (hx : ∀ c ∈ x.head?, c.isDigit = false)
    (hy : ∀ c ∈ y.head?, c.isDigit = false) (h : l ++ x = m ++ y) : l = m ∧ x = y := by
  have htake : ∀ {l x : Text}, (∀ c ∈ l, c.isDigit = true) → (∀ c ∈ x.head?, c.isDigit = false) →
      (l ++ x).takeWhile Char.isDigit = l := by
    intro l x hl hx
    rw [List.takeWhile_append_of_pos hl]
    cases x with
    | nil => simp
    | cons c x => simp [hx c rfl]
  have hlm : l = m := by rw [← htake hl hx, h, htake hm hy]
  exact ⟨hlm, List.append_cancel_left (hlm ▸ h)⟩

theorem front_nat : Front nat := by
  intro m n x y hx hy h
  obtain ⟨hn, hxy⟩ := digits_append_inj (fun _ => isDigit_of_mem_nat) (fun _ => isDigit_of_mem_nat)
    hx.notDigit hy.notDigit h
  exact ⟨nat_injective hn, hxy⟩

theorem nat_ne_cons (hc : c.isDigit = false) (hx : Delimited x) (hne : ¬Delimited (c :: y)) :
    nat n ++ x ≠ c :: y := by
  intro h
  cases hn : nat n with
  | nil =>
    rw [hn, List.nil_append] at h
    exact hne (h ▸ hx)
  | cons d t =>
    rw [hn, List.cons_append] at h
    obtain rfl := (List.cons.inj h).1
    rw [isDigit_of_mem_nat (n := n) (by simp [hn])] at hc
    cases hc

theorem not_delimited_minus : ¬Delimited ('-' :: y) := by
  rintro ⟨c, x, h, rfl | rfl⟩ <;> simp at h

theorem front_int : Front int := by
  intro a b x y hx hy h
  cases a with
  | ofNat m =>
    cases b with
    | ofNat n =>
      obtain ⟨rfl, hxy⟩ := front_nat hx hy h
      exact ⟨rfl, hxy⟩
    | negSucc n => exact absurd h (nat_ne_cons rfl hx not_delimited_minus)
  | negSucc m =>
    cases b with
    | ofNat n => exact absurd h.symm (nat_ne_cons rfl hy not_delimited_minus)
    | negSucc n =>
      obtain ⟨hn, hxy⟩ := front_nat hx hy (List.cons.inj h).2
      exact ⟨by rw [Nat.succ_injective hn], hxy⟩

theorem front_string : Front string := fun _ _ h => string_append_inj h

theorem front_bool : Front bool := by
  intro a b x y _ _ h
  cases a <;> cases b <;> simp_all [bool]

variable {α : Type} {f : α → Text}

theorem front_option (hf : Front f)
    (hn : ∀ a x y, Delimited x → f a ++ x ≠ 'n' :: y) : Front (option f) := by
  intro a b x y hx hy h
  cases a with
  | none =>
    cases b with
    | none => exact ⟨rfl, by simpa [option] using h⟩
    | some b => exact absurd h.symm (hn b y _ hy)
  | some a =>
    cases b with
    | none => exact absurd h (hn a x _ hx)
    | some b =>
      obtain ⟨rfl, hxy⟩ := hf hx hy h
      exact ⟨rfl, hxy⟩

theorem int_ne_null (a : Int) (x y : Text) (hx : Delimited x) : int a ++ x ≠ 'n' :: y := by
  cases a with
  | ofNat n =>
    refine nat_ne_cons rfl hx ?_
    rintro ⟨c, x, h, rfl | rfl⟩ <;> simp at h
  | negSucc n => simp [int]

theorem bool_ne_null (a : Bool) (x y : Text) (_ : Delimited x) : bool a ++ x ≠ 'n' :: y := by
  cases a <;> simp [bool]

theorem string_ne_null (a x y : Text) (_ : Delimited x) : string a ++ x ≠ 'n' :: y := by
  simp [string]

-- The fields of an object

def closing (fields : List (Text × Text)) : Text :=
  (fields.flatMap fun p => ',' :: field p.1 p.2) ++ [Char.ofNat 125]

theorem object_nil : object [] = [Char.ofNat 123, Char.ofNat 125] := rfl

theorem object_cons (p : Text × Text) (fields : List (Text × Text)) :
    object (p :: fields) = Char.ofNat 123 :: (field p.1 p.2 ++ closing fields) := by
  unfold object closing
  induction fields generalizing p with
  | nil => simp
  | cons q fields ih =>
    have := (List.cons.inj (ih q)).2
    simp only [List.map_cons, List.intersperse_cons_cons, List.flatten_cons, List.flatMap_cons,
      List.append_assoc, List.cons_append, List.nil_append, List.cons.injEq, true_and] at this ⊢
    rw [this]

theorem delimited_closing (fields : List (Text × Text)) (x : Text) :
    Delimited (closing fields ++ x) := by
  cases fields with
  | nil => exact ⟨_, _, rfl, .inr rfl⟩
  | cons p fields => exact ⟨_, _, rfl, .inl rfl⟩

theorem field_front (hf : Front f)
    (h : field k (f a) ++ (closing l ++ x) = field k' (f b) ++ (closing m ++ y)) :
    k = k' ∧ a = b ∧ closing l ++ x = closing m ++ y := by
  simp only [field, List.append_assoc, List.cons_append] at h
  obtain ⟨hk, h⟩ := string_append_inj h
  obtain ⟨ha, h⟩ := hf (delimited_closing l x) (delimited_closing m y) (List.cons.inj h).2
  exact ⟨hk, ha, h⟩

theorem object_front (hf : Front f)
    (h : object ((k, f a) :: l) ++ x = object ((k', f b) :: m) ++ y) :
    k = k' ∧ a = b ∧ closing l ++ x = closing m ++ y := by
  rw [object_cons, object_cons] at h
  simp only [List.cons_append, List.append_assoc, List.cons.injEq, true_and] at h
  exact field_front hf h

theorem closing_front (hf : Front f)
    (h : closing ((k, f a) :: l) ++ x = closing ((k', f b) :: m) ++ y) :
    k = k' ∧ a = b ∧ closing l ++ x = closing m ++ y := by
  simp only [closing, List.flatMap_cons, List.append_assoc, List.cons_append, List.cons.injEq,
    true_and] at h
  refine field_front hf ?_
  simpa [closing] using h

theorem closing_nil_front (h : closing [] ++ x = closing [] ++ y) : x = y :=
  (List.cons.inj h).2

theorem closing_map_front (hf : Front f) {l m : List (Text × α)}
    (h : closing (l.map fun p => (p.1, f p.2)) ++ x = closing (m.map fun p => (p.1, f p.2)) ++ y) :
    l = m ∧ x = y := by
  induction l generalizing m with
  | nil =>
    cases m with
    | nil => exact ⟨rfl, closing_nil_front h⟩
    | cons q m => simp [closing] at h
  | cons p l ih =>
    cases m with
    | nil => simp [closing] at h
    | cons q m =>
      obtain ⟨hk, hv, h⟩ := closing_front hf h
      obtain ⟨rfl, hxy⟩ := ih h
      exact ⟨by rw [Prod.ext hk hv], hxy⟩

theorem front_entries (hf : Front f) :
    Front fun l : List (Text × α) => object (l.map fun p => (p.1, f p.2)) := by
  intro l m x y _ _ h
  cases l with
  | nil =>
    cases m with
    | nil => exact ⟨rfl, by simpa [object] using h⟩
    | cons q m => simp [object_nil, object_cons, field, string] at h
  | cons p l =>
    cases m with
    | nil => simp [object_nil, object_cons, field, string] at h
    | cons q m =>
      obtain ⟨hk, hv, h⟩ := object_front hf h
      obtain ⟨rfl, hxy⟩ := closing_map_front hf h
      exact ⟨by rw [Prod.ext hk hv], hxy⟩

end Json

theorem Map.front_json {α : Type} {f : α → Text} (hf : Json.Front f) : Json.Front (Map.json f) := by
  intro a b x y hx hy h
  obtain ⟨hl, hxy⟩ := Json.front_entries hf hx hy h
  exact ⟨Std.ExtTreeMap.ext_toList (by rw [hl]), hxy⟩
