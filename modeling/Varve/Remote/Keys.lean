import Varve.Engine.Model

/-!
# Keys of a remote store

`validate_key` and the prefix tests of `remote.rs`.
-/

namespace Varve.Remote

open Result (ensure ensure_ok ensure_bind forM_ok)
open Text (backslash)

def controlDir : Text := ".varve".toList

def tempPrefix : Text := ".varve-tmp-".toList

/-- `key.split('/')`. -/
def components : Text → List Text
  | [] => [[]]
  | c :: t => if c = '/' then [] :: components t else (components t).modifyHead (c :: ·)

/-- `char::is_control`. -/
def isControl (c : Char) : Bool := c.toNat < 32 || (127 ≤ c.toNat && c.toNat ≤ 159)

def validateComponent (index : Nat) (component : Text) : Except String Unit := do
  ensure (component ≠ [] ∧ component ≠ ['.'] ∧ component ≠ ['.', '.'])
    "remote object key contains an unsafe path component"
  ensure (¬(index = 0 ∧ component = controlDir) ∧ ¬tempPrefix <+: component)
    "remote object key uses a reserved component"

def validateKey (key : Text) (allowEmpty : Bool) : Except String Unit :=
  if key = [] then ensure (allowEmpty = true) "remote object key must not be empty"
  else do
    ensure (key.head? ≠ some '/') "remote object key must be relative"
    ensure (backslash ∉ key) "remote object key must use forward slashes"
    ensure (¬"://".toList <:+: key ∧ ':' ∉ key ∧ '?' ∉ key ∧ '#' ∉ key)
      "remote object key must not be a URI"
    ensure ('%' ∉ key) "remote object key must not contain percent escapes"
    ensure (key.any isControl = false) "remote object key contains a control character"
    (components key).zipIdx.forM fun x => validateComponent x.2 x.1

def keyIsWithinPrefix (key p : Text) : Bool :=
  p.isEmpty || (p.isPrefixOf? key).any (·.head? = some '/')

def cursorIsWithinPrefix (cursor p : Text) : Bool :=
  p.isEmpty || cursor = p || keyIsWithinPrefix cursor p

/-- The key of a file, from the components of its path below the root. -/
def filePathToKey (path : List Text) : Text :=
  path.foldl (fun key component => (if key = [] then key else key ++ ['/']) ++ component) []

-- Paths and keys

def Name (name : Text) : Prop := name ≠ [] ∧ '/' ∉ name

theorem components_ne_nil (t : Text) : components t ≠ [] := by
  cases t with
  | nil => simp [components]
  | cons c t =>
    unfold components
    split
    · simp
    · cases h : components t with
      | nil => exact absurd h (components_ne_nil t)
      | cons w ws => simp

theorem components_append (a b : Text) :
    components (a ++ '/' :: b) = components a ++ components b := by
  induction a with
  | nil => simp [components]
  | cons c a ih =>
    simp only [List.cons_append, components]
    split
    · rw [ih, List.cons_append]
    · rw [ih]
      cases h : components a with
      | nil => exact absurd h (components_ne_nil a)
      | cons w ws => simp

theorem components_name (h : '/' ∉ name) : components name = [name] := by
  induction name with
  | nil => rfl
  | cons c name ih =>
    rw [List.mem_cons, not_or] at h
    rw [components, if_neg (Ne.symm h.1), ih h.2]
    rfl

def slashed (path : List Text) : Text := path.flatMap ('/' :: ·)

theorem filePathToKey_cons (hn : name ≠ []) (path : List Text) :
    filePathToKey (name :: path) = name ++ slashed path := by
  have hfold (key : Text) (hk : key ≠ []) :
      path.foldl (fun key component => (if key = [] then key else key ++ ['/']) ++ component) key =
        key ++ slashed path := by
    induction path generalizing key with
    | nil => simp [slashed]
    | cons n path ih =>
      rw [List.foldl_cons, if_neg hk, ih _ (by simp)]
      simp [slashed]
  rw [filePathToKey, List.foldl_cons, if_pos rfl, List.nil_append, hfold name hn]

theorem components_slashed (hn : '/' ∉ name) (hp : ∀ n ∈ path, Name n) :
    components (name ++ slashed path) = name :: path := by
  induction path generalizing name with
  | nil => rw [slashed, List.flatMap_nil, List.append_nil, components_name hn]
  | cons n path ih =>
    obtain ⟨hname, hrest⟩ := List.forall_mem_cons.mp hp
    have hsplit : name ++ slashed (n :: path) = name ++ '/' :: (n ++ slashed path) := by
      simp [slashed]
    rw [hsplit, components_append, components_name hn, ih hname.2 hrest, List.singleton_append]

theorem components_filePathToKey (hne : path ≠ []) (hp : ∀ n ∈ path, Name n) :
    components (filePathToKey path) = path := by
  cases path with
  | nil => exact absurd rfl hne
  | cons name path =>
    obtain ⟨hname, hrest⟩ := List.forall_mem_cons.mp hp
    rw [filePathToKey_cons hname.1, components_slashed hname.2 hrest]

theorem components_cons (t : Text) : ∃ w ws, components t = w :: ws ∧ t = w ++ slashed ws := by
  induction t with
  | nil => exact ⟨[], [], rfl, rfl⟩
  | cons c t ih =>
    obtain ⟨w, ws, hc, ht⟩ := ih
    by_cases hslash : c = '/'
    · refine ⟨[], w :: ws, ?_, ?_⟩
      · rw [components, if_pos hslash, hc]
      · rw [ht, hslash]
        simp [slashed]
    · refine ⟨c :: w, ws, ?_, ?_⟩
      · rw [components, if_neg hslash, hc, List.modifyHead_cons]
      · rw [List.cons_append, ← ht]

theorem slash_notMem_components (h : w ∈ components t) : '/' ∉ w := by
  induction t generalizing w with
  | nil =>
    rw [components, List.mem_singleton] at h
    simp [h]
  | cons c t ih =>
    rw [components] at h
    split at h
    · rcases List.mem_cons.mp h with rfl | h
      · simp
      · exact ih h
    · rename_i hc
      cases hw : components t with
      | nil => exact absurd hw (components_ne_nil t)
      | cons v vs =>
        rw [hw, List.modifyHead_cons] at h
        rcases List.mem_cons.mp h with rfl | h
        · rw [List.mem_cons, not_or]
          exact ⟨Ne.symm hc, ih (hw ▸ List.mem_cons_self)⟩
        · exact ih (hw ▸ List.mem_cons_of_mem _ h)

theorem isPrefixOf?_some {p t rest : Text} : p.isPrefixOf? t = some rest ↔ t = p ++ rest := by
  induction p generalizing t with
  | nil => simp [List.isPrefixOf?, eq_comm]
  | cons c p ih =>
    cases t with
    | nil => simp [List.isPrefixOf?]
    | cons d t =>
      simp only [List.isPrefixOf?, List.cons_append, List.cons.injEq, beq_iff_eq]
      by_cases hcd : c = d
      · simp [hcd, ih]
      · simp [hcd, Ne.symm hcd]

theorem keyIsWithinPrefix_iff :
    keyIsWithinPrefix key p = true ↔ p = [] ∨ ∃ suffix, key = p ++ '/' :: suffix := by
  rw [keyIsWithinPrefix, Bool.or_eq_true, List.isEmpty_iff]
  refine or_congr_right ⟨fun h => ?_, ?_⟩
  · cases hp : p.isPrefixOf? key with
    | none => simp [hp] at h
    | some rest =>
      rw [hp, Option.any_some, decide_eq_true_eq] at h
      obtain ⟨suffix, rfl⟩ := List.head?_eq_some_iff.mp h
      exact ⟨suffix, isPrefixOf?_some.mp hp⟩
  · rintro ⟨suffix, rfl⟩
    rw [isPrefixOf?_some.mpr rfl]
    rfl

/-- What a walk leaves out: the control directory and temporary files. -/
def skipped (path : List Text) (name : Text) : Bool :=
  path ++ [name] = [controlDir] || tempPrefix.isPrefixOf name

def Visible (base path : List Text) : Prop :=
  ∀ front name back, path = front ++ name :: back → skipped (base ++ front) name = false

theorem validateKey_ok (h : validateKey key false = .ok ()) :
    key ≠ [] ∧ ∀ x ∈ (components key).zipIdx, validateComponent x.2 x.1 = .ok () := by
  unfold validateKey at h
  split at h
  · exact absurd (ensure_ok.mp h) (by decide)
  · rename_i hne
    simp only [ensure_bind] at h
    obtain ⟨-, -, -, -, -, h⟩ := h
    exact ⟨hne, forM_ok.mp h⟩

theorem visible_components (h : validateKey key false = .ok ()) :
    Visible [] (components key) ∧ ∀ n ∈ components key, Name n := by
  obtain ⟨-, hall⟩ := validateKey_ok h
  have hcomponent (index : Nat) (name : Text) (hn : (components key)[index]? = some name) :
      name ≠ [] ∧ ¬(index = 0 ∧ name = controlDir) ∧ ¬tempPrefix <+: name := by
    have hx := hall (name, index) (List.mem_zipIdx_iff_getElem?.mpr hn)
    obtain ⟨hsafe, hx⟩ := ensure_bind.mp hx
    exact ⟨hsafe.1, ensure_ok.mp hx⟩
  refine ⟨fun front name back hpath => ?_, fun n hn => ?_⟩
  · obtain ⟨-, hcontrol, htemp⟩ := hcomponent front.length name (by simp [hpath])
    refine Bool.eq_false_iff.mpr fun hs => ?_
    simp only [skipped, List.nil_append, Bool.or_eq_true, decide_eq_true_eq,
      List.isPrefixOf_iff_prefix] at hs
    rcases hs with he | ht
    · refine hcontrol ?_
      cases front with
      | nil =>
        cases he
        exact ⟨rfl, rfl⟩
      | cons w front => simp at he
    · exact htemp ht
  · obtain ⟨index, hindex⟩ := List.mem_iff_getElem?.mp hn
    exact ⟨(hcomponent index n hindex).1, slash_notMem_components hn⟩

theorem visible_nil : Visible base [] := by
  intro front name back h
  simp at h

theorem visible_cons : Visible base (name :: path) ↔
    skipped base name = false ∧ Visible (base ++ [name]) path := by
  constructor
  · intro h
    refine ⟨by simpa using h [] name path rfl, fun front n back hp => ?_⟩
    simpa using h (name :: front) n back (by rw [hp, List.cons_append])
  · rintro ⟨hname, hrest⟩ front n back hp
    cases front with
    | nil =>
      cases hp
      simpa using hname
    | cons w front =>
      obtain ⟨rfl, htail⟩ := List.cons.inj hp
      simpa using hrest front n back htail

theorem visible_append : Visible base (path ++ more) ↔
    Visible base path ∧ Visible (base ++ path) more := by
  induction path generalizing base with
  | nil => simp [visible_nil]
  | cons name path ih =>
    rw [List.cons_append, visible_cons, visible_cons, ih, and_assoc]
    simp

end Varve.Remote
