import Varve.Lib.Selection
import Varve.Remote.Keys

/-!
# Listing a file store

`list_page` of `FileStore` and `list_all_bounded` in `remote.rs`.
-/

namespace Varve.Remote

open Result (ensure ensure_ok ensure_bind bind_ok)
open Selection (sorted offer)

def maxListPageSize : Nat := 1000

def maxListKeys : Nat := 10000

inductive FileType where
  | file
  | symlink
  | other
deriving DecidableEq

/-- The entries of a directory that are still to be read. -/
inductive Directory where
  | done
  | entry (name : Text) (fileType : FileType) (rest : Directory)
  | dir (name : Text) (entries rest : Directory)

inductive Node where
  | leaf (fileType : FileType)
  | dir (entries : Directory)

/-- `fs::symlink_metadata`: a path through a file is an error of its own. -/
inductive Metadata where
  | found (node : Node)
  | notFound
  | notDirectory

structure ListPage where
  keys : List Text
  next : Option Text
deriving DecidableEq

def Directory.find (name : Text) : Directory → Option Node
  | .done => none
  | .entry n fileType rest => if n = name then some (.leaf fileType) else rest.find name
  | .dir n entries rest => if n = name then some (.dir entries) else rest.find name

def metadata : List Text → Directory → Metadata
  | [], d => .found (.dir d)
  | name :: path, d =>
    match d.find name with
    | none => .notFound
    | some (.dir entries) => metadata path entries
    | some (.leaf fileType) => if path = [] then .found (.leaf fileType) else .notDirectory

section
variable (fails : List Text → Bool) (root : Directory)

/-- Nothing is any other error, as for a name that is too long; `fails` says at which paths. -/
def symlinkMetadata (path : List Text) : Option Metadata :=
  if fails path then none else some (metadata path root)

def inspect (key : Text) (path : List Text) : Except String Unit :=
  match symlinkMetadata fails root path with
  | some (.found (.leaf .symlink)) =>
    .error ("object path contains a symlink: " ++ String.ofList key)
  | some .notDirectory | none => .error ("inspect object path " ++ String.ofList key)
  | _ => .ok ()

def checkedPath (key : Text) : Except String (List Text) := do
  validateKey key false
  (components key).inits.tail.forM (inspect fails root key)
  .ok (components key)

def startOf (p : Text) : Except String (List Text) :=
  if p = [] then .ok [] else checkedPath fails root p

end

def validateCursor (p : Text) : Option Text → Except String Unit
  | none => .ok ()
  | some cursor => do
    (validateKey cursor false).mapError fun _ => "invalid remote list cursor"
    ensure (cursorIsWithinPrefix cursor p = true)
      ("remote list cursor is outside prefix \"" ++ String.ofList p ++ "\"")

def validateListRequest (p : Text) (after : Option Text) (limit : Nat) : Except String Unit := do
  (validateKey p true).mapError fun _ => "invalid remote list prefix"
  ensure (limit ≠ 0 ∧ limit ≤ maxListPageSize)
    ("remote list page limit must be between 1 and 1000, got " ++ toString limit)
  validateCursor p after

def finishPage (keys : List Text) (limit : Nat) : ListPage :=
  ⟨keys.take limit, if limit < keys.length then keys[limit - 1]? else none⟩

section
variable (p : Text) (after : Option Text) (capacity : Nat)

def passed (key : Text) : Bool := after.any (key ≤ ·)

def offerKey (path heap : List Text) : Except String (List Text) := do
  (validateKey (filePathToKey path) false).mapError fun _ =>
    "filesystem listing returned an unsafe key"
  ensure (keyIsWithinPrefix (filePathToKey path) p = true)
    ("filesystem listing escaped requested prefix " ++ String.ofList p)
  .ok (if passed after (filePathToKey path) then heap
    else offer capacity heap (filePathToKey path))

/-- The loop over the stack of directories: an inner directory is read to its end first. -/
def walk : Directory → List Text → List Text → Except String (List Text)
  | .done, _, heap => .ok heap
  | .entry name fileType rest, path, heap =>
    if skipped path name then walk rest path heap
    else
      match fileType with
      | .symlink => .error ("remote object tree contains a symlink: " ++
          String.ofList (filePathToKey (path ++ [name])))
      | .other => .error ("unsupported remote object file type: " ++
          String.ofList (filePathToKey (path ++ [name])))
      | .file => do
        let heap ← offerKey p after capacity (path ++ [name]) heap
        walk rest path heap
  | .dir name entries rest, path, heap =>
    if skipped path name then walk rest path heap
    else do
      let heap ← walk entries (path ++ [name]) heap
      walk rest path heap

end

def listPage (fails : List Text → Bool) (root : Directory) (p : Text) (after : Option Text)
    (limit : Nat) : Except String ListPage := do
  validateListRequest p after limit
  let start ← startOf fails root p
  match symlinkMetadata fails root start with
  | some .notFound => .ok ⟨[], none⟩
  | some .notDirectory | none => .error ("inspect list prefix " ++ String.ofList p)
  | some (.found (.leaf .symlink)) =>
    .error ("list prefix contains a symlink: " ++ String.ofList p)
  | some (.found (.leaf _)) => .ok ⟨[], none⟩
  | some (.found (.dir entries)) => do
    let smallest ← walk p after (limit + 1) entries start []
    .ok (finishPage (sorted smallest) limit)

def checkKey (p : Text) (prior : Option Text) (key : Text) : Except String (Option Text) := do
  (validateKey key false).mapError fun _ => "remote adapter returned an unsafe list key"
  ensure (keyIsWithinPrefix key p = true)
    ("remote adapter returned a key outside prefix \"" ++ String.ofList p ++ "\": " ++
      String.ofList key)
  ensure (passed prior key = false) "remote adapter returned a non-increasing list page"
  .ok (some key)

def checkNext (keys : List Text) : Option Text → Except String Unit
  | none => .ok ()
  | some next => do
    (validateKey next false).mapError fun _ => "remote adapter returned an unsafe list cursor"
    ensure (keys.getLast? = some next)
      "remote adapter returned a list cursor that is not the last page key"

/-- The checks of `list_all_bounded` on a page, with the keys before it. -/
def checkPage (p : Text) (keys : List Text) (after : Option Text) (page : ListPage) :
    Except String Unit := do
  ensure (page.keys.length ≤ maxListPageSize) "remote adapter returned an oversized list page"
  let _ ← page.keys.foldlM (checkKey p) after
  ensure (keys.length + page.keys.length ≤ maxListKeys)
    "remote listing exceeds 10000-key compatibility limit; use list_page"
  checkNext page.keys page.next

theorem checkPage_more (h : checkPage p keys after page = .ok ()) (hn : page.next = some next) :
    keys.length < (keys ++ page.keys).length ∧ (keys ++ page.keys).length ≤ maxListKeys := by
  obtain ⟨-, h⟩ := ensure_bind.mp h
  obtain ⟨_, -, h⟩ := bind_ok.mp h
  obtain ⟨hroom, h⟩ := ensure_bind.mp h
  rw [hn, checkNext] at h
  obtain ⟨_, -, h⟩ := bind_ok.mp h
  have hlast := ensure_ok.mp h
  rw [List.length_append]
  refine ⟨Nat.lt_add_of_pos_right (List.length_pos_iff.mpr ?_), hroom⟩
  rintro he
  rw [he] at hlast
  cases hlast

/-- The loop of `list_all_bounded`; `page n` is what the store answers to the `n`th call. -/
def listAllLoop (p : Text) (page : Nat → Option Text → Except String ListPage) (n : Nat)
    (keys : List Text) (after : Option Text) : Except String (List Text) :=
  match page n after with
  | .error e => .error e
  | .ok answer =>
    match _hc : checkPage p keys after answer with
    | .error e => .error e
    | .ok () =>
      match _hn : answer.next with
      | none => .ok (keys ++ answer.keys)
      | some next => listAllLoop p page (n + 1) (keys ++ answer.keys) (some next)
termination_by maxListKeys - keys.length
decreasing_by
  have := checkPage_more _hc _hn
  omega

def listAllBounded (p : Text) (page : Nat → Option Text → Except String ListPage) :
    Except String (List Text) :=
  listAllLoop p page 0 [] none

/-- A tree that the store itself has made: names are unique, and what is neither of the control
directory nor temporary is a directory or an object with a valid key. -/
def Directory.Clean : Directory → List Text → Prop
  | .done, _ => True
  | .entry name fileType rest, path => rest.find name = none ∧ Name name ∧
      (skipped path name = false →
        fileType = .file ∧ validateKey (filePathToKey (path ++ [name])) false = .ok ()) ∧
      rest.Clean path
  | .dir name entries rest, path => rest.find name = none ∧ Name name ∧
      (skipped path name = false → entries.Clean (path ++ [name])) ∧ rest.Clean path

def Node.Clean : Node → List Text → Prop
  | .leaf fileType, path => fileType = .file ∧ validateKey (filePathToKey path) false = .ok ()
  | .dir entries, path => entries.Clean path

/-- The objects of a store, and the paths the system refuses to inspect. -/
structure Tree where
  root : Directory
  fails : List Text → Bool
  clean : root.Clean []

def Directory.paths : Directory → List Text → List (List Text)
  | .done, _ => []
  | .entry name _ rest, path =>
    (if skipped path name then [] else [path ++ [name]]) ++ rest.paths path
  | .dir name entries rest, path =>
    (if skipped path name then [] else entries.paths (path ++ [name])) ++ rest.paths path

def Tree.keys (t : Tree) : List Text := (t.root.paths []).map filePathToKey

/-- The keys below a prefix and behind a cursor, in order. -/
def Tree.listed (t : Tree) (p : Text) (after : Option Text) : List Text :=
  sorted (t.keys.filter fun key => keyIsWithinPrefix key p && !passed after key)

theorem walk_skipped (hs : skipped path name = true) :
    walk p after capacity (.entry name fileType rest) path heap =
      walk p after capacity rest path heap := by
  rw [walk.eq_def]
  exact if_pos hs

theorem walk_eq {d : Directory} (hc : d.Clean path)
    (hp : ∀ q ∈ d.paths path, keyIsWithinPrefix (filePathToKey q) p = true) (heap : List Text) :
    walk p after capacity d path heap =
      .ok ((((d.paths path).map filePathToKey).filter fun key => !passed after key).foldl
        (offer capacity) heap) := by
  induction d generalizing path heap with
  | done => rfl
  | entry name fileType rest ih =>
    obtain ⟨-, -, hfile, hrest⟩ := hc
    rw [Directory.paths] at hp ⊢
    cases hs : skipped path name with
    | true =>
      rw [hs] at hp
      rw [walk_skipped hs]
      exact ih hrest hp heap
    | false =>
      rw [hs] at hp
      obtain ⟨rfl, hvalid⟩ := hfile hs
      obtain ⟨hhead, htail⟩ := List.forall_mem_cons.mp hp
      rw [walk]
      simp only [hs, Bool.false_eq_true, if_false, offerKey, hvalid, Except.mapError, hhead,
        Result.ok_bind, Result.ensure_pos, ih hrest htail, List.singleton_append, List.map_cons,
        List.filter_cons]
      cases passed after (filePathToKey (path ++ [name])) <;> rfl
  | dir name entries rest ihe ih =>
    obtain ⟨-, -, hentries, hrest⟩ := hc
    rw [Directory.paths] at hp
    rw [walk, Directory.paths]
    cases hs : skipped path name with
    | true =>
      rw [hs] at hp
      exact ih hrest hp heap
    | false =>
      rw [hs] at hp
      obtain ⟨hinner, hrest'⟩ := List.forall_mem_append.mp hp
      simp only [Bool.false_eq_true, if_false, ihe (hentries hs) hinner, Result.ok_bind,
        ih hrest hrest', List.map_append, List.filter_append, List.foldl_append]

-- Paths of a tree

section
variable {d : Directory} {path : List Text}

theorem metadata_append (hm : more ≠ []) : metadata (path ++ more) d =
    match metadata path d with
    | .found (.dir entries) => metadata more entries
    | .found (.leaf _) => .notDirectory
    | .notFound => .notFound
    | .notDirectory => .notDirectory := by
  induction path generalizing d with
  | nil => rfl
  | cons name path ih =>
    rw [List.cons_append, metadata, metadata]
    cases d.find name with
    | none => rfl
    | some node =>
      cases node with
      | dir entries => exact ih
      | leaf fileType =>
        dsimp only
        rw [if_neg (by simp [hm])]
        by_cases hp : path = [] <;> simp [hp]

def IsFile (path : List Text) (d : Directory) : Prop := metadata path d = .found (.leaf .file)

theorem not_isFile_of_find (h : d.find name = none) (path : List Text) :
    ¬IsFile (name :: path) d := by
  rw [IsFile, metadata, h]
  rintro ⟨⟩

theorem isFile_entry (hf : rest.find name = none) :
    IsFile path (.entry name fileType rest) ↔
      path = [name] ∧ fileType = .file ∨ IsFile path rest := by
  cases path with
  | nil => simp [IsFile, metadata]
  | cons n path =>
    by_cases hn : name = n
    · subst hn
      simp only [not_isFile_of_find hf path, or_false]
      by_cases hp : path = [] <;> simp [IsFile, metadata, Directory.find, hp]
    · simp [IsFile, metadata, Directory.find, hn, Ne.symm hn]

theorem isFile_dir (hf : rest.find name = none) :
    IsFile path (.dir name entries rest) ↔
      (∃ inner, path = name :: inner ∧ IsFile inner entries) ∨ IsFile path rest := by
  cases path with
  | nil => simp [IsFile, metadata]
  | cons n path =>
    by_cases hn : name = n
    · subst hn
      simp only [not_isFile_of_find hf path, or_false, List.cons.injEq, true_and,
        exists_eq_left']
      simp [IsFile, metadata, Directory.find]
    · simp [IsFile, metadata, Directory.find, hn, Ne.symm hn]

theorem not_isFile_done : ¬IsFile path .done := by
  cases path <;> rintro ⟨⟩

theorem mem_paths (hc : d.Clean base) :
    q ∈ d.paths base ↔ ∃ path, q = base ++ path ∧ IsFile path d ∧ Visible base path := by
  induction d generalizing base with
  | done => simp [Directory.paths, not_isFile_done]
  | entry name fileType rest ih =>
    obtain ⟨hfresh, -, hfile, hrest⟩ := hc
    rw [Directory.paths, List.mem_append, ih hrest]
    simp only [isFile_entry hfresh, or_and_right, and_or_left, exists_or]
    refine or_congr_left ?_
    constructor
    · intro hq
      split at hq
      · cases hq
      · rename_i hs
        rw [Bool.not_eq_true] at hs
        exact ⟨[name], List.mem_singleton.mp hq, ⟨rfl, (hfile hs).1⟩,
          visible_cons.mpr ⟨hs, visible_nil⟩⟩
    · rintro ⟨_, rfl, ⟨rfl, -⟩, hv⟩
      simp [(visible_cons.mp hv).1]
  | dir name entries rest ihe ih =>
    obtain ⟨hfresh, -, hentries, hrest⟩ := hc
    rw [Directory.paths, List.mem_append, ih hrest]
    simp only [isFile_dir hfresh, or_and_right, and_or_left, exists_or]
    refine or_congr_left ?_
    constructor
    · intro hq
      split at hq
      · cases hq
      · rename_i hs
        rw [Bool.not_eq_true] at hs
        obtain ⟨inner, rfl, hinner, hv⟩ := (ihe (hentries hs)).mp hq
        exact ⟨name :: inner, by simp, ⟨inner, rfl, hinner⟩, visible_cons.mpr ⟨hs, hv⟩⟩
    · rintro ⟨_, rfl, ⟨inner, rfl, hinner⟩, hv⟩
      obtain ⟨hs, hv⟩ := visible_cons.mp hv
      rw [hs]
      exact (ihe (hentries hs)).mpr ⟨inner, by simp, hinner, hv⟩

theorem nodup_paths (hc : d.Clean base) : (d.paths base).Nodup := by
  induction d generalizing base with
  | done => exact List.nodup_nil
  | entry name fileType rest ih =>
    obtain ⟨hfresh, -, -, hrest⟩ := hc
    rw [Directory.paths]
    split
    · exact ih hrest
    · refine List.nodup_cons.mpr ⟨fun h => ?_, ih hrest⟩
      obtain ⟨path, hpath, hfile, -⟩ := (mem_paths hrest).mp h
      rw [← List.append_cancel_left hpath] at hfile
      exact not_isFile_of_find hfresh [] hfile
  | dir name entries rest ihe ih =>
    obtain ⟨hfresh, -, hentries, hrest⟩ := hc
    rw [Directory.paths]
    split
    · exact ih hrest
    · rename_i hs
      rw [Bool.not_eq_true] at hs
      refine (ihe (hentries hs)).append (ih hrest) fun q hinner hq => ?_
      obtain ⟨inner, rfl, -, -⟩ := (mem_paths (hentries hs)).mp hinner
      obtain ⟨path, hpath, hfile, -⟩ := (mem_paths hrest).mp hq
      rw [List.append_assoc] at hpath
      rw [← List.append_cancel_left hpath] at hfile
      exact not_isFile_of_find hfresh inner hfile

theorem clean_find (hc : d.Clean base) (hf : d.find name = some node) :
    Name name ∧ (skipped base name = false → node.Clean (base ++ [name])) := by
  induction d with
  | done => cases hf
  | entry n fileType rest ih =>
    obtain ⟨-, hname, hfile, hrest⟩ := hc
    rw [Directory.find] at hf
    split at hf
    · rename_i hn
      cases hf
      exact hn ▸ ⟨hname, hfile⟩
    · exact ih hrest hf
  | dir n entries rest _ ih =>
    obtain ⟨-, hname, hentries, hrest⟩ := hc
    rw [Directory.find] at hf
    split at hf
    · rename_i hn
      cases hf
      exact hn ▸ ⟨hname, hentries⟩
    · exact ih hrest hf

theorem clean_metadata (hc : d.Clean base) (hv : Visible base path)
    (hm : metadata path d = .found node) :
    (∀ n ∈ path, Name n) ∧ node.Clean (base ++ path) := by
  induction path generalizing d base with
  | nil =>
    cases hm
    exact ⟨fun _ h => (nomatch h), by simpa [Node.Clean] using hc⟩
  | cons name path ih =>
    obtain ⟨hs, hv⟩ := visible_cons.mp hv
    rw [metadata] at hm
    cases hf : d.find name with
    | none =>
      rw [hf] at hm
      cases hm
    | some first =>
      rw [hf] at hm
      obtain ⟨hname, hclean⟩ := clean_find hc hf
      cases first with
      | leaf fileType =>
        dsimp only at hm
        split at hm
        · rename_i hp
          cases hm
          exact hp ▸ ⟨by simpa using hname, hclean hs⟩
        · cases hm
      | dir entries =>
        obtain ⟨hnames, hnode⟩ := ih (hclean hs) hv hm
        exact ⟨List.forall_mem_cons.mpr ⟨hname, hnames⟩, by simpa using hnode⟩

end

end Varve.Remote
