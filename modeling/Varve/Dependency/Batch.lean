import Mathlib.Data.List.Sort
import Varve.Lib.Bytes
import Varve.Lib.Effect
import Varve.Lib.Inodes
import Varve.Lib.Text

/-!
# Publishing immutable dependencies

`dependency_publication.rs`: a batch stages objects below a durable anchor and is finished by
syncing every directory it has passed.
-/

namespace Varve.Dependency

open Effect (get modify check context)
open Inodes (Node FileSystem)

/-- The directories passed so far, as paths below the anchor, and the poison. -/
structure DependencyBatch where
  directories : List (List Text)
  failed : Bool
deriving DecidableEq, Repr

def DependencyBatch.new : DependencyBatch := ⟨[], false⟩

structure World where
  fs : FileSystem Text UInt8
  batch : DependencyBatch

inductive Component where
  | normal (name : Text)
  | other
deriving DecidableEq, Repr

inductive Step where
  | createDir (depth : Nat)
  | metadata (depth : Nat)
  | tryExists
  | read
  | beforeSync
  | fileSync
  | beforeCreate
  | create
  | beforeWrite
  | write
  | beforeRename
  | rename
  | removeFile
  | beforeDirSync (directory : List Text)
  | dirSync (directory : List Text)
deriving DecidableEq, Repr

structure Faults where
  fails : Step → Bool
  /-- How much a failing write has written. -/
  written : Nat

def anchor : Nat := 0

abbrev Io := Effect World

section
variable (faults : Faults)

def attempt (step : Step) : Io Unit := check (faults.fails step = false) "I/O error"

def onFiles (f : FileSystem Text UInt8 → FileSystem Text UInt8) : Io Unit :=
  modify fun w => { w with fs := f w.fs }

def setFailed (failed : Bool) : Io Unit :=
  modify fun w => { w with batch := { w.batch with failed } }

def newDir : Node Text UInt8 := .dir (fun _ => none) fun _ => none

def newFile : Node Text UInt8 := .file [] []

/-- `fs::create_dir_all` below a directory: the node of the last component. -/
def createDirAll : Nat → Nat → List Text → Io Nat
  | _, d, [] => pure d
  | depth, d, name :: path => do
    let w ← get
    match w.fs.entry d name with
    | some i => do
      check ((w.fs.node i).isDir = true) "File exists"
      createDirAll (depth + 1) i path
    | none => do
      attempt faults (.createDir depth)
      onFiles fun fs => fs.create d name newDir
      createDirAll (depth + 1) w.fs.next path

/-- A directory and those above it, up to the anchor. -/
def ancestors (directory : List Text) : List (List Text) := directory.inits.reverse

def trackDirectories : List (List Text) → Io Unit
  | [] => pure ()
  | directory :: rest => do
    attempt faults (.metadata directory.length)
    let w ← get
    check ((w.fs.lookup anchor directory).any fun i => (w.fs.node i).isDir)
      "dependency directory is not an ordinary directory"
    modify fun w => { w with
      batch := { w.batch with directories := w.batch.directories.insert directory } }
    trackDirectories rest

/-- The object is there: its bytes are verified and synced. -/
def reuse (verify : Bytes → Except String Unit) (i limit : Nat) : Io Unit := do
  let w ← get
  match w.fs.node i with
  | .dir _ _ => Effect.lift (.error "dependency is not an ordinary file")
  | .file content _ => do
    attempt faults .read
    check (content.length ≤ limit) "file exceeds read budget"
    Effect.lift (verify content)
    attempt faults .beforeSync
    attempt faults .fileSync
    onFiles fun fs => fs.sync i

def createNew (d : Nat) (temp : Text) : Io Nat := do
  attempt faults .create
  let w ← get
  check (w.fs.entry d temp = none) "File exists"
  onFiles fun fs => fs.create d temp newFile
  pure w.fs.next

def writeAll (i : Nat) (bytes : Bytes) : Io Unit := do
  onFiles fun fs => fs.write i (if faults.fails .write then bytes.take faults.written else bytes)
  attempt faults .write

def writeTemp (d : Nat) (temp target : Text) (bytes : Bytes) : Io Unit := do
  let i ← createNew faults d temp
  attempt faults .beforeWrite
  writeAll faults i bytes
  attempt faults .beforeSync
  attempt faults .fileSync
  onFiles fun fs => fs.sync i
  attempt faults .beforeRename
  attempt faults .rename
  onFiles fun fs => fs.rename d temp target

/-- After an error the temporary is removed, if that succeeds. -/
def removing (d : Nat) (temp : Text) (m : Io Unit) : Io Unit := fun w =>
  match m w with
  | (.ok a, w') => (.ok a, w')
  | (.error e, w') =>
    (.error e, if faults.fails .removeFile then w' else { w' with fs := w'.fs.unlink d temp })

def publish (admission : Nat → Except String Unit) (d : Nat) (temp target : Text) (bytes : Bytes) :
    Io Unit := do
  Effect.lift (admission bytes.length)
  attempt faults .beforeCreate
  removing faults d temp (writeTemp faults d temp target bytes)

end

/-- A call of `stage`: the path is `none` outside the anchor, `temp` the name that was drawn for
the temporary. -/
structure Call where
  path : Option (List Component)
  bytes : Bytes
  verify : Bytes → Except String Unit
  admission : Nat → Except String Unit
  temp : Text
  faults : Faults

def Component.name? : Component → Option Text
  | .normal name => some name
  | .other => none

/-- The parent and the file name of a path of normal components. -/
def place (path : List Component) : Option (List Text × Text) := do
  let names ← path.mapM Component.name?
  let target ← names.getLast?
  some (names.dropLast, target)

namespace Call

/-- The object exists or is created; whether it is new. -/
def provide (c : Call) (d : Nat) (target : Text) : Io Bool := do
  attempt c.faults .tryExists
  let w ← get
  match w.fs.entry d target with
  | some i => do
    reuse c.faults c.verify i c.bytes.length
    pure false
  | none => do
    publish c.faults c.admission d c.temp target c.bytes
    pure true

def stageAt (c : Call) (parent : List Text) (target : Text) : Io Bool := do
  let d ← createDirAll c.faults 0 anchor parent
  trackDirectories c.faults (ancestors parent)
  c.provide d target

def stage (c : Call) : Io Bool := do
  let w ← get
  check (w.batch.failed = false) "dependency batch already failed"
  setFailed true
  let relative ← context c.path "dependency is outside its durable anchor"
  let (parent, target) ← context (place relative) "invalid dependency path"
  let created ← c.stageAt parent target
  setFailed false
  pure created

end Call

def syncDirectories (faults : Faults) : List (List Text) → Io Unit
  | [] => pure ()
  | directory :: rest => do
    attempt faults (.beforeDirSync directory)
    let w ← get
    let i ← context (w.fs.lookup anchor directory) "No such file or directory"
    attempt faults (.dirSync directory)
    onFiles fun fs => fs.sync i
    syncDirectories faults rest

/-- Children are synced before the directories that hold their entries. -/
def finish (faults : Faults) : Io Unit := do
  let w ← get
  check (w.batch.failed = false) "dependency batch already failed"
  syncDirectories faults
    (w.batch.directories.insertionSort fun a b => b.length ≤ a.length)

end Varve.Dependency
